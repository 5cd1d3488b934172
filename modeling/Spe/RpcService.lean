import Spe.RpcSession

/-!
# Commands and the answers to them (`spe_rpc.c`)

A client sends a stream of commands and reads what comes back.  However its packets are cut,
however late the handlers answer and however slowly the kernel takes what is written, the
answers that it reads are those to its commands, in their order (`commands_answered`).  All of
them are answered exactly if the packets keep up with the commands, as it is with handlers that
answer at once.
-/

namespace Spe

open Transition Incremental

/-! ## A client again -/

namespace RpcClient

/-- A state of the connection that looks the same to the parser and to the reads. -/
theorem Live.congr {commands : List (List Bytes)} {s : RpcClient} {k : Nat} {seen : Bytes}
    {r : RpcConn} (h : Live commands s k seen) (hview : r.view = s.rpc.view)
    (hroom : r.request.len ≤ r.request.data.length)
    (hreader : r.conn.reader = s.rpc.conn.reader) : Live commands { s with rpc := r } k seen where
  room := hroom
  closed := (congrArg Reader.closed hreader).trans h.closed
  error := (congrArg Reader.error hreader).trans h.error
  readBuffer := (congrArg Reader.readBuffer hreader).trans h.readBuffer
  count := h.count
  dispatched := h.dispatched
  stream := h.stream
  arrived := h.arrived
  parser := by
    have hbuffer : r.conn.buffer.bytes = s.rpc.conn.buffer.bytes := congrArg Reader.buffer hreader
    obtain ⟨p, d, hparser⟩ := h.parser
    refine ⟨p, d, fun x => ?_⟩
    change rpcMachine.run r.view (r.conn.buffer.bytes ++ x) = _
    rw [hview, hbuffer]
    exact hparser x

/-- The packets keep up exactly when all commands have been dispatched in the end. -/
theorem Parsed.keepsUp_iff {commands : List (List Bytes)} {chunks : List Bytes} {k : Nat}
    (h : Parsed commands chunks k) : KeepsUp commands chunks ↔ commands.length ≤ k := by
  have hstart : completeAfter commands chunks 0 = 0 := by
    unfold completeAfter
    cases commands with
    | nil => rfl
    | cons command commands =>
        have hpos := encode_pos command
        rw [completeIn, if_neg]
        simp only [List.take_zero, List.flatten_nil, List.length_nil]
        omega
  unfold KeepsUp
  rw [h, le_handled_iff hstart]

end RpcClient

namespace RpcSession

/-- The allocator answers, the client sends its bytes and keeps the connection open, and it
takes some of what is written. -/
def Calm (s : RpcSession) : SessionEvent → Prop
  | .handler al r => al.Good ∧ s.client.Reads r
  | .parse ans => s.client.Granted (.parse ans) ∧ ∀ n, (ans.writes n).isSome
  | .done _ _ ans => s.client.Granted (.parse ans) ∧ ∀ n, (ans.writes n).isSome
  | .readNormal al rs => al.Good ∧ ∀ r ∈ rs, s.client.Reads r
  | .writeNormal w => ∃ n, w = .wrote n

/-- What is written is allocated. -/
theorem Calm.granted {s : RpcSession} {ev : SessionEvent} (h : s.Calm ev) : s.Granted ev := by
  cases ev with
  | handler al r => trivial
  | parse ans => exact h.2
  | done type msg ans => exact h.2
  | readNormal al rs => trivial
  | writeNormal w => trivial

/-- The client with a connection on which the command that is being handled is answered. -/
def Settled (commands : List (List Bytes)) (c : RpcClient) (r : RpcConn) : Prop :=
  ∃ k seen, RpcClient.Live commands { c with rpc := { r with request := r.request.clean } } k seen ∧
    r.conn.request = none ∧ RpcClient.Parsed commands c.chunks k

/-- The session serves the commands: those that were dispatched are the first of them, and
nothing that has arrived is lost. -/
structure Serves (commands : List (List Bytes)) (s : RpcSession) : Prop where
  first : s.client.dispatched <+: commands.map fun command => command.map some
  idle : s.handling = false → s.client.Inv commands
  working : s.handling = true →
    s.client.phase = .posted ∧ Settled commands s.client s.client.rpc

/-- A client that is where it should be has dispatched the first of its commands. -/
theorem first_of_live {commands : List (List Bytes)} {c : RpcClient} {k : Nat} {seen : Bytes}
    (h : RpcClient.Live commands c k seen) :
    c.dispatched <+: commands.map fun command => command.map some := by
  rw [h.dispatched]
  exact (List.take_prefix k commands).map _

/-- Between two commands. -/
theorem Serves.of_inv {commands : List (List Bytes)} {s : RpcSession}
    (h : s.client.Inv commands)
    (hfirst : s.client.dispatched <+: commands.map fun command => command.map some)
    (hidle : s.handling = false) : s.Serves commands where
  first := hfirst
  idle := fun _ => h
  working := by
    intro hworking
    rw [hidle] at hworking
    cases hworking

/-- The program stops. -/
theorem Serves.abort {commands : List (List Bytes)} {s : RpcSession}
    (hfirst : s.client.dispatched <+: commands.map fun command => command.map some) :
    s.abort.Serves commands :=
  .of_inv trivial hfirst rfl

/-- Reading dispatches nothing. -/
theorem read_dispatched (c : RpcClient) (r : RpcConn) (al : Allocs) (rr : ReadRes) :
    (c.read r al rr).dispatched = c.dispatched := by
  unfold RpcClient.read
  split <;> rfl

/-- `SpeRPCDone` leaves the parser where it is. -/
theorem rpcDone_view {r r' : RpcConn} {al : Nat → Alloc} {w : WriteRes}
    (h : r.rpcDone al w = some r') :
    r'.view = { r with request := r.request.clean : RpcConn }.view := by
  obtain ⟨_, _, _, _, _, _, rfl⟩ := RpcConn.rpcDone_some h
  rfl

/-- **`SpeRPCDone`** goes on to the next command. -/
theorem Serves.done {commands : List (List Bytes)} {s : RpcSession} {r : RpcConn}
    {ans : RpcAnswers} (h : Settled commands s.client r)
    (hgranted : s.client.Granted (.parse ans)) : (s.rpcDone r ans).Serves commands := by
  obtain ⟨k, seen, hlive, hidle, hparsed⟩ := h
  obtain ⟨_, ⟨n, hflush⟩, hal, hreads⟩ := hgranted
  have hfirst := first_of_live hlive
  dsimp only at hfirst
  unfold rpcDone
  cases hdone : r.rpcDone ans.writes ans.flush with
  | none => exact .abort hfirst
  | some r' =>
      have hview := rpcDone_view hdone
      rw [hflush] at hdone
      obtain ⟨hreader, _, _, hroom⟩ := rpcDone_spec hdone
      have hnext := hlive.congr hview hroom hreader
      have hread := hnext.read hparsed ((congrArg Reader.request hreader).trans hidle) hal hreads
      exact .of_inv hread ((read_dispatched _ _ _ _).symm ▸ hfirst) rfl

/-- **An execution of `rpcParse`.** -/
theorem Serves.parse {commands : List (List Bytes)}
    (hplain : ∀ command ∈ commands, command ≠ [] ∧ PlainArgs command) {cmdMap : SpeMap Unit}
    {s s' : RpcSession} {ans : RpcAnswers} (h : s.Serves commands)
    (hphase : s.client.phase = .posted) (hidle : s.handling = false)
    (hgranted : s.client.Granted (.parse ans)) (hstep : s.parse cmdMap ans = some s') :
    s'.Serves commands := by
  have hinv := h.idle hidle
  unfold RpcClient.Inv at hinv
  simp only [hphase] at hinv
  obtain ⟨k, seen, chunks, got, hlive, hnone, hchunks, hparsed⟩ := hinv
  have hnext := hlive.parsed_next hchunks hparsed
  unfold RpcSession.parse at hstep
  rcases hlive.rpcParse hplain hgranted.1 with
    ⟨r, command, later, seen', hparse, hdrop, rfl, hstrings, hstar, hreader⟩ |
    ⟨r, hparse, hzero, hwaits, hsame⟩ | hparse
  · have hk : min (k + 1) (k + completeIn (commands.drop k)
        (encode command ++ seen').length) = k + 1 := by
      rw [hdrop, completeIn, if_pos (by simp)]
      omega
    rw [hk] at hnext
    simp only [hparse] at hstep
    cases hres : r.rpcDispatch cmdMap ans.response with
    | none =>
        rw [hres] at hstep
        obtain rfl := Option.some.inj hstep
        exact .abort h.first
    | some res =>
        obtain ⟨called, found⟩ := res
        obtain ⟨hconn, hrequest, hstatus⟩ := rpcDispatch_spec hres
        rw [hres] at hstep
        dsimp only at hconn hrequest hstatus hstep
        have hreader' : ({ called with request := called.request.clean } : RpcConn).conn.reader =
            { s.client.rpc.conn.reader with buffer := seen' } :=
          (congrArg Conn.reader hconn).trans hreader
        have hlive' := hlive.dispatching hdrop hstrings hreader' (hstatus.trans hstar) rfl
          (Nat.zero_le _)
        have hsettled : Settled commands { s.client with
            rpc := called
            dispatched := s.client.dispatched ++ [r.request.strings] } called :=
          ⟨k + 1, seen', hlive', (congrArg Reader.request hreader').trans hnone, hnext⟩
        cases found with
        | false =>
            obtain rfl := Option.some.inj hstep
            exact Serves.done (s := { s with client := { s.client with
              rpc := called
              dispatched := s.client.dispatched ++ [r.request.strings] } }) hsettled hgranted
        | true =>
            obtain rfl := Option.some.inj hstep
            have hfirst := first_of_live hlive'
            exact {
              first := hfirst
              idle := by
                intro hfalse
                cases hfalse
              working := fun _ => ⟨hphase, hsettled⟩ }
  · have hk : min (k + 1) (k + completeIn (commands.drop k) seen.length) = k := by omega
    rw [hk] at hnext
    simp only [hparse, Option.some.injEq] at hstep
    obtain rfl := hstep
    have hread := hwaits.read hnext (hsame.trans hnone) hgranted.2.2.1 hgranted.2.2.2
    exact .of_inv hread ((read_dispatched _ _ _ _).symm ▸ h.first) hidle
  · simp only [hparse, Option.some.injEq] at hstep
    obtain rfl := hstep
    exact .abort h.first

/-- **Step lemma.** -/
theorem Serves.step {commands : List (List Bytes)}
    (hplain : ∀ command ∈ commands, command ≠ [] ∧ PlainArgs command) {cmdMap : SpeMap Unit}
    {s s' : RpcSession} {ev : SessionEvent} (h : s.Serves commands) (hcalm : s.Calm ev)
    (hstep : s.step cmdMap ev = some s') : s'.Serves commands := by
  cases ev with
  | handler al r =>
      obtain ⟨hphase, hsome⟩ := Option.ite_none_right_eq_some.mp hstep
      obtain rfl := Option.some.inj hsome
      have hidle : s.handling = false := by
        rw [Bool.eq_false_iff]
        intro hworking
        cases hphase.symm.trans (h.working hworking).1
      have hclient : s.client.step RpcClient.noCommands (.handler al r) =
          some (s.client.read s.client.rpc al r) := if_pos hphase
      have hgranted : s.client.Granted (.handler al r) := hcalm
      exact .of_inv ((h.idle hidle).step hplain hgranted hclient)
        ((read_dispatched _ _ _ _).symm ▸ h.first) hidle
  | parse ans =>
      obtain ⟨⟨hphase, hidle⟩, hparse⟩ := Option.ite_none_right_eq_some.mp hstep
      exact h.parse hplain hphase (Bool.eq_false_iff.mpr hidle) hcalm.1 hparse
  | done type msg ans =>
      obtain ⟨hworking, hsome⟩ := Option.ite_none_right_eq_some.mp hstep
      obtain rfl := Option.some.inj hsome
      obtain ⟨_, k, seen, hlive, hrest⟩ := h.working hworking
      exact Serves.done ⟨k, seen, hlive.congr rfl (Nat.zero_le _) rfl, hrest⟩ hcalm.1
  | readNormal al rs =>
      obtain ⟨⟨hphase, hidle⟩, hmap⟩ := Option.ite_none_right_eq_some.mp hstep
      obtain ⟨client, hread, rfl⟩ := Option.map_eq_some_iff.mp hmap
      have hfalse := Bool.eq_false_iff.mpr hidle
      have hclient : s.client.step RpcClient.noCommands (.readNormal al rs) = some client :=
        (if_pos hphase).trans hread
      have hgranted : s.client.Granted (.readNormal al rs) := hcalm
      have hsame : client.dispatched = s.client.dispatched := by
        obtain ⟨res, _, rfl⟩ := Option.map_eq_some_iff.mp hread
        dsimp only
        split <;> rfl
      exact .of_inv ((h.idle hfalse).step hplain hgranted hclient) (hsame ▸ h.first) hfalse
  | writeNormal w =>
      obtain ⟨_, hsome⟩ := Option.ite_none_right_eq_some.mp hstep
      obtain rfl := Option.some.inj hsome
      obtain ⟨n, rfl⟩ := hcalm
      have hreader := writeNormal_reader s.client.rpc.conn n
      unfold RpcSession.writeNormal RpcClient.writeNormal
      split
      · exact {
          first := h.first
          idle := fun hidle => (h.idle hidle).writeNormal hreader
          working := by
            intro hworking
            obtain ⟨hphase, k, seen, hlive, hnone, hparsed⟩ := h.working hworking
            exact ⟨hphase, k, seen, hlive.congr rfl (Nat.zero_le _) hreader,
              (congrArg Reader.request hreader).trans hnone, hparsed⟩ }
      · exact .abort h.first

/-- **Commands are answered.**  Whatever the packets, the handlers and the kernel do, the
requests that have been answered are the first of the commands, in their order; when no
message holds a CRLF the lines that the client reads are the answers to them; and when the
connection waits for more, all commands have been answered if and only if the packets have kept
up with them. -/
theorem commands_answered {commands : List (List Bytes)}
    (hplain : ∀ command ∈ commands, command ≠ [] ∧ PlainArgs command)
    {cmdMap : SpeMap Unit} {conn : Conn} {fd : Nat} {evs : List SessionEvent} {s : RpcSession}
    (hrun : Run (step cmdMap) Calm (start conn fd (commands.flatMap encode)) evs s) :
    s.answered.map Prod.fst <+: commands.map (fun command => command.map some) ∧
    ((∀ line ∈ s.lines, ¬ [13, 10] <:+: line.2) → readLines s.accepted <+: s.lines) ∧
    (s.client.phase = .pending →
      (s.answered.map Prod.fst = commands.map (fun command => command.map some) ↔
        KeepsUp commands s.client.chunks)) := by
  have hinv : s.Inv := (hrun.mono fun _ _ => Calm.granted).invariant Inv (inv_start conn fd _)
    (fun _ _ _ h hok hstep => h.step hok hstep)
  have hserves : s.Serves commands := hrun.invariant (Serves commands)
    (.of_inv (RpcClient.inv_start commands conn fd) List.nil_prefix rfl)
    (fun _ _ _ h hok hstep => h.step hplain hok hstep)
  obtain ⟨unanswered, horder, _, hall⟩ := hinv.order
  refine ⟨(horder ▸ List.prefix_append _ _).trans hserves.first, hinv.reads, fun hpending => ?_⟩
  have hidle : s.handling = false := by
    rw [Bool.eq_false_iff]
    intro hworking
    cases hpending.symm.trans (hserves.working hworking).1
  have hnone := hall hidle (by simp [hpending])
  rw [hnone, List.append_nil] at horder
  have hclient := hserves.idle hidle
  unfold RpcClient.Inv at hclient
  simp only [hpending] at hclient
  obtain ⟨k, seen, hlive, _, hparsed⟩ := hclient
  rw [horder, hlive.dispatched, hparsed.keepsUp_iff]
  constructor
  · intro heq
    have hlength := congrArg List.length heq
    rw [List.length_map, List.length_map, List.length_take] at hlength
    omega
  · intro hle
    rw [List.take_of_length_le hle]

/-- A command whose handler answers later is answered. -/
theorem commands_answered_one : ∃ s, Run (step oneCommand) Calm
    (start Conn.zero 7 ([[[97]]].flatMap encode)) oneHandled s ∧
      s.answered.map Prod.fst = [[some [97]]] := by
  obtain ⟨s₁, hs₁⟩ : ∃ s₁, (start Conn.zero 7 ([[[97]]].flatMap encode)).step oneCommand
      (.handler RpcClient.allocating (.data (encode [[97]]))) = some s₁ := ⟨_, rfl⟩
  have hexec : ∀ s₁ ∈ (start Conn.zero 7 ([[[97]]].flatMap encode)).step oneCommand
      (.handler RpcClient.allocating (.data (encode [[97]]))),
      (exec (step oneCommand) s₁ (oneHandled.drop 1)).isSome ∧
        ∀ s ∈ exec (step oneCommand) s₁ (oneHandled.drop 1),
          s.client.phase = .pending ∧ s.client.chunks = [encode [[97]]] := by
    decide +kernel
  obtain ⟨s, hs⟩ := Option.isSome_iff_exists.mp (hexec s₁ hs₁).1
  obtain ⟨hphase, hchunks⟩ := (hexec s₁ hs₁).2 s hs
  have hlater : Run (step oneCommand) Calm s₁ (oneHandled.drop 1) s := by
    refine run_of_exec ?_ hs
    intro ev hev s
    simp only [oneHandled, List.drop_succ_cons, List.drop_zero, List.mem_cons, List.not_mem_nil,
      or_false] at hev
    rcases hev with rfl | rfl
    · exact ⟨RpcClient.taking_granted (Or.inl rfl), fun _ => rfl⟩
    · exact ⟨⟨fun _ => answering_good, ⟨2, rfl⟩, RpcClient.allocating_good, Or.inl rfl⟩,
        fun _ => rfl⟩
  have hrun : Run (step oneCommand) Calm (start Conn.zero 7 ([[[97]]].flatMap encode))
      oneHandled s :=
    Run.cons hs₁ ⟨RpcClient.allocating_good, by decide, by decide +kernel⟩ hlater
  have hplain : ∀ command ∈ [[[97]]], command ≠ [] ∧ PlainArgs command := by
    intro command hcommand
    rw [List.mem_singleton.mp hcommand]
    exact RpcClient.plain_single (by decide) (by decide)
  refine ⟨s, hrun, ((commands_answered hplain hrun).2.2 hphase).mpr ?_⟩
  unfold KeepsUp
  rw [hchunks]
  decide

end RpcSession

end Spe
