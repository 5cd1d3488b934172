import Mathlib.Data.Nat.Digits.Defs
import Spe.BufsAtomic
import Spe.ConnDefined
import Spe.Incremental
import Spe.Map

/-!
# RPC requests (`spe_rpc.c`)

A command is sent as `*`, the number of its arguments and CRLF, and for each argument
`$`, its length, CRLF, the argument and CRLF.  The parser goes from one CRLF in the
buffer to the next.  It finds the end of an argument by its length, but what stands
before a CRLF inside an argument becomes an element of the request of its own.

`rpcParse` is the code, over the public buffer of the connection and the list of strings
of the request; `rpcMachine` is the same parser over bytes (`rpcParse_view`).  A request
comes through exactly if no argument holds a CRLF, all numbers fit into an `int`, and no copy
into the list wraps (`request_survives`).

The old names in the source are read as the functions of `spe_buf.c` and `spe_conn.c`.
Positions in the buffer are read as exact; the numbers that are sent are not.  Where the program
stops (an `ASSERT` that fails, a NULL that is followed) or a size wraps, the model stops, too.
-/

namespace Spe

/-- `RPC_PARSE_STAR`, `RPC_PARSE_PARM` and `RPC_PARSE_DATA`. -/
inductive RpcStatus
  | star
  | parm
  | data
  deriving DecidableEq

/-- `SPE_RPCMSG_NONE` to `SPE_RPCMSG_MBULK`. -/
inductive RpcMsg
  | none
  | ok
  | err
  | num
  | bulk
  | mbulk
  deriving DecidableEq

/-- `speRPCConn_t`, with the connection itself; `respType` and `respMsg` are the response. -/
structure RpcConn where
  status : RpcStatus
  paramLeft : Int
  dataLeft : Int
  request : Bufs
  respType : RpcMsg
  respMsg : Bufs
  conn : Conn

/-- `isspace`. -/
def isSpace (c : UInt8) : Bool := c = 32 || (9 ≤ c && c ≤ 13)

/-- A decimal digit. -/
def isDigit (c : UInt8) : Bool := 48 ≤ c && c ≤ 57

/-- The value of the digits at the beginning. -/
def digitsValue (s : Bytes) : Nat :=
  (s.takeWhile isDigit).foldl (fun n c => n * 10 + (c.toNat - 48)) 0

/-- `strtol(s, NULL, 10)`, which stops at the bounds of `long`. -/
def strtol (s : Bytes) : Int :=
  let value : Int :=
    match s.dropWhile isSpace with
    | 45 :: s => -(digitsValue s)
    | 43 :: s => digitsValue s
    | s => digitsValue s
  max (-2 ^ 63) (min value (2 ^ 63 - 1))

/-- `atoi`, which is `strtol` converted to an `int`. -/
def atoi (s : Bytes) : Int := (strtol s).bmod (2 ^ 32)

/-- `checkToken`: the first CRLF. -/
def checkToken (data : Bytes) : Option Nat := Search.find [13, 10] data

/-- What a round of the loop of `rpcParse` does.  It is undefined when a size wraps in
`SpeBufsAppend`. -/
inductive RpcRound
  | more (r : RpcConn)
  | process (r : RpcConn)
  | errout
  | undefined

namespace RpcConn

variable (r : RpcConn)

/-- `SpeBufLConsume` on the buffer of the connection. -/
def consume (n : Nat) : RpcConn :=
  { r with conn := { r.conn with buffer := r.conn.buffer.lconsume n } }

/-- A round of the loop of `rpcParse`, with the first CRLF at `pos`.  Behind `pos` the code
writes a NUL for `atoi`; the bytes up to there are consumed in the same round. -/
def round (pos : Nat) (al : BufsAlloc) : RpcRound :=
  let data := r.conn.buffer.bytes
  match r.status with
  | .star =>
      if pos < 2 ∨ data.head? ≠ some 42 then .errout else
      let r : RpcConn := { r with paramLeft := atoi ((data.take pos).drop 1) }
      if r.paramLeft < 1 then .errout else
      .more { r.consume (pos + 2) with status := .parm }
  | .parm =>
      if pos < 2 ∨ data.head? ≠ some 36 then .errout else
      let r : RpcConn := { r with dataLeft := atoi ((data.take pos).drop 1) }
      if r.dataLeft < 0 then .errout else
      .more { r.consume (pos + 2) with status := .data }
  | .data =>
      if pos > r.dataLeft then .errout else
      if pos < r.dataLeft then
        if ¬ r.request.Takes (data.take (pos + 2)) al then .undefined else
        let r : RpcConn := { r with request := (r.request.append (data.take (pos + 2)) al).1 }
        .more { r.consume (pos + 2) with dataLeft := r.dataLeft - (pos + 2) }
      else
        if ¬ r.request.Takes (data.take pos) al then .undefined else
        let r : RpcConn := { r with request := (r.request.append (data.take pos) al).1 }
        let r : RpcConn := { r.consume (pos + 2) with paramLeft := r.paramLeft - 1 }
        if r.paramLeft = 0 then .process { r with status := .star }
        else .more { r with status := .parm }

end RpcConn

/-- How `rpcParse` goes on: `SpeConnRead`, `rpcProcess` and return, or `errout`. -/
inductive RpcParsed
  | read (r : RpcConn)
  | process (r : RpcConn)
  | errout
  | undefined

namespace RpcConn

/-- The loop of `rpcParse`.  `als n` is what the allocator answers to the append that is
made with `n` bytes in the buffer; without fuel the loop is still running. -/
def parseLoop (als : Nat → BufsAlloc) : Nat → RpcConn → Option RpcParsed
  | 0, _ => none
  | fuel + 1, r =>
      match checkToken r.conn.buffer.bytes with
      | none => some (.read r)
      | some pos =>
          match r.round pos (als r.conn.buffer.bytes.length) with
          | .more r => parseLoop als fuel r
          | .process r => some (.process r)
          | .errout => some .errout
          | .undefined => some .undefined

/-- `rpcParse`, up to what it calls last. -/
def rpcParse (r : RpcConn) (als : Nat → BufsAlloc) : Option RpcParsed :=
  if r.conn.closed || r.conn.error then some .errout
  else parseLoop als (r.conn.buffer.bytes.length + 1) r

end RpcConn

/-- A command that is registered: what its handler puts into the response, before it calls
`SpeRPCDone`. -/
abbrev RpcHandler := Bufs → RpcMsg × Bufs

/-- `"Command Not Support"`. -/
def cmdNotSupportErr : Bytes :=
  [67, 111, 109, 109, 97, 110, 100, 32, 78, 111, 116, 32, 83, 117, 112, 112, 111, 114, 116]

/-- `Data[0]` of a list of strings, which is NULL when there has never been a string. -/
def Bufs.first (bufs : Bufs) : Option ByteBuf := bufs.data.getD 0 none

/-- A number in decimal. -/
def decimal (n : Nat) : Bytes :=
  if n = 0 then [48] else (Nat.digits 10 n).reverse.map (fun d => UInt8.ofNat (48 + d))

/-- `sprintf` of a `long` with `%ld`. -/
def formatLong (v : Int) : Bytes := if v < 0 then 45 :: decimal v.natAbs else decimal v.natAbs

namespace RpcConn

variable (r : RpcConn)

/-- The name of a command, which `rpcProcess` reads as a C string; `none` is a NULL that is
followed. -/
def command : Option CStr :=
  match r.request.first with
  | none => none
  | some name => if name.null then none else some ⟨name.cstrAt 0, nul_not_mem_cstr _⟩

/-- `rpcProcess`, with a handler that answers at once, up to `SpeRPCDone`. -/
def rpcProcess (cmdMap : SpeMap RpcHandler) (al : BufsAlloc) : Option RpcConn :=
  match r.command with
  | none => none
  | some name =>
      let r : RpcConn := { r with respMsg := r.respMsg.clean }
      match cmdMap.get name with
      | some handle =>
          let (type, msg) := handle r.request
          some { r with respType := type, respMsg := msg }
      | none =>
          some { r with respType := .err, respMsg := (r.respMsg.append cmdNotSupportErr al).1 }

/-- The arguments of `SpeConnWrite` in `SpeRPCDone`; `none` is a NULL that is followed. -/
def answer : Option (List Bytes) :=
  match r.respType with
  | .ok => r.respMsg.first.map fun msg => [[43], msg.bytes, [13, 10]]
  | .err => r.respMsg.first.map fun msg => [[45], msg.bytes, [13, 10]]
  | .num => r.respMsg.first.bind fun msg =>
      if msg.null then none else some [[58], formatLong (strtol (msg.cstrAt 0)) ++ [13, 10]]
  | _ => some []

/-- Calls of `SpeConnWrite`, as long as they are defined.  `al i` is what the allocator answers to
the write `i`. -/
def writeAll (conn : Conn) (al : Nat → Alloc) : List (Bytes × Nat) → Option Conn
  | [] => some conn
  | (bs, i) :: writes =>
      if conn.Defined (.write bs (al i)) then writeAll (conn.write bs (al i)).1 al writes else none

/-- The connection after the calls of `SpeConnWrite` in `SpeRPCDone`. -/
def written (al : Nat → Alloc) : Option Conn :=
  r.answer.bind fun answer => writeAll r.conn al answer.zipIdx

/-- `SpeRPCDone`, up to `SpeConnRead`.  `none` is where the program stops, or a size wraps: among
others at the `ASSERT` of `SpeConnWrite` for an empty message, at that of `SpeConnFlush` while an
answer is being written, and in a flush before anything has been written. -/
def rpcDone (al : Nat → Alloc) (w : WriteRes) : Option RpcConn :=
  match r.written al with
  | none => none
  | some conn =>
      if conn.writeType ≠ .writeNone ∨ ¬ conn.Defined (.flush w) then none
      else some { r with conn := (conn.flush w).1, request := r.request.clean }

end RpcConn

/-- The parser without the connection: the strings of the request so far stand for its
buffers. -/
structure ParseState where
  status : RpcStatus
  paramLeft : Int
  dataLeft : Int
  request : List (Option Bytes)

/-- A turn of the parser on the bytes in the buffer. -/
def parseTurn (s : ParseState) (data : Bytes) : Incremental.Turn ParseState UInt8 :=
  match checkToken data with
  | none => .wait
  | some pos =>
      match s.status with
      | .star =>
          if pos < 2 ∨ data.head? ≠ some 42 then .failed else
          let paramLeft := atoi ((data.take pos).drop 1)
          if paramLeft < 1 then .failed else
          .more { s with paramLeft := paramLeft, status := .parm } (data.drop (pos + 2))
      | .parm =>
          if pos < 2 ∨ data.head? ≠ some 36 then .failed else
          let dataLeft := atoi ((data.take pos).drop 1)
          if dataLeft < 0 then .failed else
          .more { s with dataLeft := dataLeft, status := .data } (data.drop (pos + 2))
      | .data =>
          if pos > s.dataLeft then .failed else
          if pos < s.dataLeft then
            .more { s with
              request := s.request ++ [some (data.take (pos + 2))]
              dataLeft := s.dataLeft - (pos + 2) } (data.drop (pos + 2))
          else
            let s : ParseState := { s with
              request := s.request ++ [some (data.take pos)]
              paramLeft := s.paramLeft - 1 }
            if s.paramLeft = 0 then .done { s with status := .star } (data.drop (pos + 2))
            else .more { s with status := .parm } (data.drop (pos + 2))

/-- A CRLF is inside the buffer. -/
theorem checkToken_bound {data : Bytes} {pos : Nat} (h : checkToken data = some pos) :
    pos + 2 ≤ data.length := Search.find_bound h

/-- The first CRLF stays the first one. -/
theorem checkToken_append {data : Bytes} {pos : Nat} (h : checkToken data = some pos)
    (more : Bytes) : checkToken (data ++ more) = some pos := Search.find_append more h

/-- All that a turn of the parser can be. -/
inductive ParseMove (s : ParseState) (data : Bytes) : Incremental.Turn ParseState UInt8 → Prop
  | wait (hpos : checkToken data = none) : ParseMove s data .wait
  | failed (pos : Nat) (hpos : checkToken data = some pos) : ParseMove s data .failed
  | star (pos : Nat) (hpos : checkToken data = some pos) :
      ParseMove s data (.more
        { s with paramLeft := atoi ((data.take pos).drop 1), status := .parm }
        (data.drop (pos + 2)))
  | parm (pos : Nat) (hpos : checkToken data = some pos) :
      ParseMove s data (.more
        { s with dataLeft := atoi ((data.take pos).drop 1), status := .data }
        (data.drop (pos + 2)))
  | part (pos : Nat) (hpos : checkToken data = some pos) (hstatus : s.status = .data)
      (hleft : pos < s.dataLeft) :
      ParseMove s data (.more
        { s with
          request := s.request ++ [some (data.take (pos + 2))]
          dataLeft := s.dataLeft - (pos + 2) } (data.drop (pos + 2)))
  | arg (pos : Nat) (hpos : checkToken data = some pos) (hstatus : s.status = .data)
      (hleft : pos = s.dataLeft) :
      ParseMove s data (.more
        { s with
          request := s.request ++ [some (data.take pos)]
          paramLeft := s.paramLeft - 1
          status := .parm } (data.drop (pos + 2)))
  | last (pos : Nat) (hpos : checkToken data = some pos) (hstatus : s.status = .data)
      (hleft : pos = s.dataLeft) (hzero : s.paramLeft - 1 = 0) :
      ParseMove s data (.done
        { s with
          request := s.request ++ [some (data.take pos)]
          paramLeft := s.paramLeft - 1
          status := .star } (data.drop (pos + 2)))

/-- A turn of the parser is one of these. -/
theorem parseTurn_cases (s : ParseState) (data : Bytes) :
    ParseMove s data (parseTurn s data) := by
  unfold parseTurn
  cases hpos : checkToken data with
  | none => exact .wait hpos
  | some pos =>
      dsimp only
      cases hstatus : s.status with
      | star =>
          dsimp only
          split
          · exact .failed pos hpos
          · split
            · exact .failed pos hpos
            · exact .star pos hpos
      | parm =>
          dsimp only
          split
          · exact .failed pos hpos
          · split
            · exact .failed pos hpos
            · exact .parm pos hpos
      | data =>
          dsimp only
          split
          · exact .failed pos hpos
          · split
            · rename_i hlt
              have hmove := ParseMove.part pos hpos hstatus hlt
              rw [hstatus] at hmove
              exact hmove
            · split
              · exact .last pos hpos hstatus (by omega) ‹_›
              · exact .arg pos hpos hstatus (by omega)

/-- The parser as a machine: what follows the first CRLF does not matter to a turn. -/
def rpcMachine : Incremental.Machine ParseState UInt8 where
  turn := parseTurn
  stable := by
    intro s data more hturn
    cases hpos : checkToken data with
    | none => exact absurd (by simp [parseTurn, hpos]) hturn
    | some pos =>
        have hbound := checkToken_bound hpos
        have hdrop : (data ++ more).drop (pos + 2) = data.drop (pos + 2) ++ more :=
          List.drop_append_of_le_length hbound
        have htake : ∀ n ≤ pos + 2, (data ++ more).take n = data.take n := fun n hn =>
          List.take_append_of_le_length (Nat.le_trans hn hbound)
        have hhead : (data ++ more).head? = data.head? := by
          cases data with
          | nil => simp at hbound
          | cons c data => rfl
        unfold parseTurn
        rw [hpos, checkToken_append hpos more]
        dsimp only
        rw [hdrop, htake pos (Nat.le_add_right pos 2), htake (pos + 2) (Nat.le_refl _), hhead]
        cases s.status with
        | star =>
            dsimp only
            split
            · rfl
            · split
              · rfl
              · rfl
        | parm =>
            dsimp only
            split
            · rfl
            · split
              · rfl
              · rfl
        | data =>
            dsimp only
            split
            · rfl
            · split
              · rfl
              · split
                · rfl
                · rfl
  shorter := by
    intro s data s' left hturn
    have hmove := parseTurn_cases s data
    rw [hturn] at hmove
    have hcut : ∃ pos, checkToken data = some pos ∧ left = data.drop (pos + 2) := by
      cases hmove with
      | star pos hpos => exact ⟨pos, hpos, rfl⟩
      | parm pos hpos => exact ⟨pos, hpos, rfl⟩
      | part pos hpos => exact ⟨pos, hpos, rfl⟩
      | arg pos hpos => exact ⟨pos, hpos, rfl⟩
    obtain ⟨pos, hpos, rfl⟩ := hcut
    have hbound := checkToken_bound hpos
    rw [List.length_drop]
    omega

/-- A turn of the machine. -/
theorem rpcMachine_turn : rpcMachine.turn = parseTurn := rfl

/-- What the parser sees of the code's state. -/
def RpcConn.view (r : RpcConn) : ParseState :=
  ⟨r.status, r.paramLeft, r.dataLeft, r.request.strings⟩

/-- Parsing changes the buffer of the connection and nothing else of it, nor the response;
the list of the request keeps its shape. -/
structure RpcConn.Keeps (r r' : RpcConn) : Prop where
  room : r.request.len ≤ r.request.data.length → r'.request.len ≤ r'.request.data.length
  conn : r'.conn = { r.conn with buffer := r'.conn.buffer }
  respType : r'.respType = r.respType
  respMsg : r'.respMsg = r.respMsg

/-- Nothing changes. -/
theorem RpcConn.Keeps.refl (r : RpcConn) : r.Keeps r := ⟨id, rfl, rfl, rfl⟩

/-- One change after the other. -/
theorem RpcConn.Keeps.trans {r r' r'' : RpcConn} (h : r.Keeps r') (h' : r'.Keeps r'') :
    r.Keeps r'' where
  room := fun hroom => h'.room (h.room hroom)
  conn := by
    rw [h'.conn, h.conn]
  respType := h'.respType.trans h.respType
  respMsg := h'.respMsg.trans h.respMsg

/-- What a round of the code is to the parser, when it is defined. -/
def RpcRound.Shows (r : RpcConn) : RpcRound → Incremental.Turn ParseState UInt8 → Prop
  | .more r', .more s left => r'.view = s ∧ r'.conn.buffer.bytes = left ∧ r.Keeps r'
  | .process r', .done s left => r'.view = s ∧ r'.conn.buffer.bytes = left ∧ r.Keeps r'
  | .errout, .failed => True
  | .undefined, _ => True
  | _, _ => False

/-- A round of the code is a turn of the parser. -/
theorem RpcConn.round_view {r : RpcConn} {pos : Nat} {al : BufsAlloc} (hal : al.Good)
    (hroom : r.request.len ≤ r.request.data.length)
    (hpos : checkToken r.conn.buffer.bytes = some pos) :
    (r.round pos al).Shows r (parseTurn r.view r.conn.buffer.bytes) := by
  have hcut : ∀ n, (r.conn.buffer.lconsume n).bytes = r.conn.buffer.bytes.drop n :=
    fun n => r.conn.buffer.bytes_lconsume n
  have happend : ∀ src, (r.request.append src al).1.strings = r.request.strings ++ [some src] ∧
      (r.request.append src al).1.len ≤ (r.request.append src al).1.data.length := by
    intro src
    obtain ⟨hstrings, _, hroom'⟩ := r.request.append_spec src hroom hal
    exact ⟨hstrings, hroom'⟩
  unfold RpcConn.round parseTurn RpcConn.view
  rw [hpos]
  dsimp only
  cases r.status with
  | star =>
      dsimp only
      split
      · trivial
      · split
        · trivial
        · exact ⟨rfl, hcut _, id, rfl, rfl, rfl⟩
  | parm =>
      dsimp only
      split
      · trivial
      · split
        · trivial
        · exact ⟨rfl, hcut _, id, rfl, rfl, rfl⟩
  | data =>
      dsimp only
      split
      · trivial
      · split
        · split
          · trivial
          · obtain ⟨hstrings, hroom'⟩ := happend (r.conn.buffer.bytes.take (pos + 2))
            refine ⟨?_, hcut _, fun _ => hroom', rfl, rfl, rfl⟩
            simp only [RpcConn.consume, RpcConn.view, hstrings]
        · split
          · trivial
          · obtain ⟨hstrings, hroom'⟩ := happend (r.conn.buffer.bytes.take pos)
            simp only [RpcConn.consume]
            split
            · refine ⟨?_, hcut _, fun _ => hroom', rfl, rfl, rfl⟩
              simp only [RpcConn.view, hstrings]
            · refine ⟨?_, hcut _, fun _ => hroom', rfl, rfl, rfl⟩
              simp only [RpcConn.view, hstrings]

/-- What the end of `rpcParse` is to the parser, when it is defined. -/
def RpcParsed.Shows (r : RpcConn) :
    Option RpcParsed → Option (Incremental.Outcome ParseState UInt8) → Prop
  | some .undefined, _ => True
  | none, none => True
  | some (.read r'), some (.waits s left) =>
      r'.view = s ∧ r'.conn.buffer.bytes = left ∧ r.Keeps r'
  | some (.process r'), some (.done s left) =>
      r'.view = s ∧ r'.conn.buffer.bytes = left ∧ r.Keeps r'
  | some .errout, some .failed => True
  | _, _ => False

/-- The parse of a later state is one of this state. -/
theorem RpcParsed.Shows.after {r r' : RpcConn} (hkeep : r.Keeps r') {p : Option RpcParsed}
    {out : Option (Incremental.Outcome ParseState UInt8)} (h : RpcParsed.Shows r' p out) :
    RpcParsed.Shows r p out := by
  unfold RpcParsed.Shows at h ⊢
  split
  · trivial
  · trivial
  · exact ⟨h.1, h.2.1, hkeep.trans h.2.2⟩
  · exact ⟨h.1, h.2.1, hkeep.trans h.2.2⟩
  · trivial
  · simp_all

/-- The loop of the code is that of the parser. -/
theorem RpcConn.parseLoop_view {als : Nat → BufsAlloc} (hals : ∀ n, (als n).Good) (fuel : Nat)
    {r : RpcConn} (hroom : r.request.len ≤ r.request.data.length) :
    RpcParsed.Shows r (parseLoop als fuel r)
      (rpcMachine.loop fuel r.view r.conn.buffer.bytes) := by
  induction fuel generalizing r with
  | zero => trivial
  | succ fuel ih =>
      unfold parseLoop Incremental.Machine.loop
      cases hpos : checkToken r.conn.buffer.bytes with
      | none =>
          have hwait : rpcMachine.turn r.view r.conn.buffer.bytes = .wait := by
            change parseTurn _ _ = _
            unfold parseTurn
            rw [hpos]
          rw [hwait]
          exact ⟨rfl, rfl, Keeps.refl r⟩
      | some pos =>
          have hview := round_view (hals r.conn.buffer.bytes.length) hroom hpos
          change RpcRound.Shows r _ (rpcMachine.turn r.view r.conn.buffer.bytes) at hview
          dsimp only
          cases hround : r.round pos (als r.conn.buffer.bytes.length) with
          | more r' =>
              rw [hround] at hview
              cases hturn : rpcMachine.turn r.view r.conn.buffer.bytes with
              | more s left =>
                  rw [hturn] at hview
                  obtain ⟨rfl, rfl, hkeep⟩ := hview
                  exact (ih (hkeep.room hroom)).after hkeep
              | wait => rw [hturn] at hview; cases hview
              | done s left => rw [hturn] at hview; cases hview
              | failed => rw [hturn] at hview; cases hview
          | process r' =>
              rw [hround] at hview
              cases hturn : rpcMachine.turn r.view r.conn.buffer.bytes with
              | done s left =>
                  rw [hturn] at hview
                  exact hview
              | wait => rw [hturn] at hview; cases hview
              | more s left => rw [hturn] at hview; cases hview
              | failed => rw [hturn] at hview; cases hview
          | errout =>
              rw [hround] at hview
              cases hturn : rpcMachine.turn r.view r.conn.buffer.bytes with
              | failed => trivial
              | wait => rw [hturn] at hview; cases hview
              | more s left => rw [hturn] at hview; cases hview
              | done s left => rw [hturn] at hview; cases hview
          | undefined => trivial

/-- **The code is the parser.** -/
theorem RpcConn.rpcParse_view {r : RpcConn} {als : Nat → BufsAlloc} (hals : ∀ n, (als n).Good)
    (hroom : r.request.len ≤ r.request.data.length) (hclosed : r.conn.closed = false)
    (herror : r.conn.error = false) :
    RpcParsed.Shows r (r.rpcParse als) (rpcMachine.run r.view r.conn.buffer.bytes) := by
  unfold RpcConn.rpcParse
  rw [hclosed, herror]
  exact parseLoop_view hals _ hroom

end Spe
