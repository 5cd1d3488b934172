import Spe.ConnRun

/-!
# What a connection is busy with

`_read_type` and `_write_type` tell which operations are pending, and a pending
connect occupies both.  Each function of `spe_conn.c` starts an operation, ends
one, or leaves all as they are, and which of these it does follows from its
outcome.

`ReadCompletes` and `WriteCompletes` are the conditions on what the kernel
answers under which an execution of `read_normal` or `write_normal` ends its
operation.
-/

namespace Spe

/-- The operations that are pending. -/
@[ext]
structure Phase where
  reading : Bool
  writing : Bool
  connecting : Bool
  deriving DecidableEq

/-- The operations of a connection that are pending. -/
def ConnState.phase (s : ConnState) : Phase where
  reading := s.conn.readType ≠ .readNone
  writing := s.conn.writeType ≠ .writeNone
  connecting := s.hist.connecting

/-- No operation is pending. -/
def Phase.idle : Phase := ⟨false, false, false⟩

/-- A pending connect occupies both sides. -/
def Phase.Coherent (p : Phase) : Prop := p.connecting → p.reading ∧ p.writing

/-- While a side is idle no connect is pending. -/
theorem Phase.Coherent.idle {p : Phase} (h : p.Coherent)
    (hidle : p.reading = false ∨ p.writing = false) : p.connecting = false := by
  cases hconnecting : p.connecting with
  | false => rfl
  | true =>
      obtain ⟨hreading, hwriting⟩ := h hconnecting
      rcases hidle with hidle | hidle
      · cases hreading.symm.trans hidle
      · cases hwriting.symm.trans hidle

/-- A read call starts a read exactly when it leaves it pending. -/
theorem ConnState.issue_phase (s : ConnState) (req : Request) (al : Allocs) (r : ReadRes) :
    (s.issue req al r).1.phase =
      if (s.issue req al r).2 = .pending then { s.phase with reading := true } else s.phase := by
  obtain ⟨hconn, _, _, hconnecting⟩ := s.issue_conn req al r
  have honly := issue_only s.conn req al r
  rw [← hconn] at honly
  dsimp only at honly
  rcases honly with ⟨hout, hkeeps⟩ | ⟨hout, hkeeps, hread, _⟩
  · rw [if_neg hout]
    ext <;> simp [ConnState.phase, hkeeps.writeType, hkeeps.readType, hconnecting]
  · rw [if_pos hout]
    ext <;> simp [ConnState.phase, hkeeps.writeType, hread, hconnecting]

/-- An execution of `read_normal` ends the read exactly when it does not leave it
pending. -/
theorem ConnState.readNormal_phase {s s' : ConnState} {timedOut : Bool} {al : Allocs}
    {rs : List ReadRes} {out : Outcome} (h : s.readNormal timedOut al rs = some (s', out)) :
    (out = .done ∧ s'.phase = { s.phase with reading := false }) ∨
    (out = .pending ∧ s'.phase = s.phase) := by
  obtain ⟨hconn, _, _, hconnecting⟩ := ConnState.readNormal_conn h
  obtain ⟨honly, hread, _⟩ := readNormal_only hconn
  have hwrite := honly.writeType
  rcases hread with ⟨hout, hread⟩ | ⟨hout, hread⟩
  · left
    refine ⟨hout, ?_⟩
    ext <;> simp [ConnState.phase, hwrite, hread, hconnecting]
  · right
    refine ⟨hout, ?_⟩
    ext <;> simp [ConnState.phase, hwrite, hread, hconnecting]

/-- What a `write` answers changes no type. -/
theorem wrote_types (c : Conn) (w : WriteRes) :
    (c.wrote w).1.readType = c.readType ∧ (c.wrote w).1.writeType = c.writeType := by
  cases w with
  | wrote n => exact ⟨rfl, rfl⟩
  | err e => cases e <;> exact ⟨rfl, rfl⟩

/-- A flush starts a write exactly when it leaves it pending. -/
theorem ConnState.flush_phase (s : ConnState) (w : WriteRes) :
    (s.flush w).1.phase =
      if (s.flush w).2 = .pending then { s.phase with writing := true } else s.phase := by
  obtain ⟨hread, hwrite⟩ := wrote_types s.conn w
  unfold ConnState.flush Conn.flush
  by_cases hends : s.conn.closed || s.conn.error
  · simp [hends, ConnState.phase]
  · by_cases hended : (s.conn.wrote w).2
    · simp [hends, hended, ConnState.phase, ConnState.noteWrite, hread, hwrite]
    · simp [hends, hended, ConnState.phase, ConnState.noteWrite, hread]

/-- An execution of `write_normal` ends the write exactly when it does not leave it
pending. -/
theorem ConnState.writeNormal_phase (s : ConnState) (timedOut : Bool) (w : WriteRes) :
    ((s.writeNormal timedOut w).2 = .done ∧
      (s.writeNormal timedOut w).1.phase = { s.phase with writing := false }) ∨
    ((s.writeNormal timedOut w).2 = .pending ∧
      (s.writeNormal timedOut w).1.phase = s.phase) := by
  obtain ⟨hread, hwrite⟩ := wrote_types s.conn w
  unfold ConnState.writeNormal Conn.writeNormal
  by_cases htime : s.conn.writeExpireTime ≠ 0 ∧ timedOut
  · simp [htime, ConnState.phase, Conn.endWrite]
  · by_cases hended : (s.conn.wrote w).2
    · simp [htime, hended, ConnState.phase, ConnState.noteWrite, Conn.endWrite, hread]
    · simp [htime, hended, ConnState.phase, ConnState.noteWrite, hread, hwrite]

/-- `spe_conn_write` starts and ends nothing. -/
theorem ConnState.write_phase (s : ConnState) (bs : Bytes) (al : Alloc) :
    (s.write bs al).phase = s.phase := by
  unfold ConnState.write Conn.write
  dsimp only
  split <;> split <;> rfl

/-- A connect that is pending occupies both sides; another one changes nothing. -/
theorem ConnState.connect_phase (s : ConnState) (res : Conn.ConnectRes) :
    (s.connect res).1.phase =
      if (s.connect res).2 = .pending then ⟨true, true, true⟩
      else { s.phase with connecting := false } := by
  cases res <;> rfl

/-- `connect_normal` always ends the connect. -/
theorem ConnState.connectNormal_phase (s : ConnState) (timedOut soError : Bool) :
    (s.connectNormal timedOut soError).phase = Phase.idle := by
  unfold ConnState.connectNormal Conn.connectNormal
  dsimp only
  split <;> rfl

/-- The execution of `read_normal` ends the read: it is timed out, or the loop
around `read` ends with the frame there, or at the end of the stream, or with an
error. -/
def ReadCompletes (c : Conn) (timedOut : Bool) (al : Allocs) (rs : List ReadRes) : Prop :=
  (c.readExpireTime ≠ 0 ∧ timedOut) ∨
  ∃ b ret, Conn.readLoop c.readBuffer al rs = some (b, ret) ∧
    ((∃ req n, c.request = some req ∧ codeFrame req b.bytes = some n) ∨
      ret = .zero ∨ (ret.fatal ∧ ret ≠ .bufError) ∨ c.closed ∨ c.error)

/-- The execution of `write_normal` ends the write: it is timed out, or `write` fails
or takes all that is pending. -/
def WriteCompletes (c : Conn) (timedOut : Bool) (w : WriteRes) : Prop :=
  (c.writeExpireTime ≠ 0 ∧ timedOut) ∨ (∃ e, w = .err e) ∨
  ∃ n, w = .wrote n ∧ c.writeBuffer.bytes.length ≤ n

/-- The check of `_read_type` finds the frame of the pending request. -/
theorem checkReadType_isSome (c : Conn) (al : Allocs) :
    (c.checkReadType al).isSome ↔
      ∃ req n, c.request = some req ∧ codeFrame req c.readBuffer.bytes = some n := by
  unfold Conn.checkReadType Conn.request
  cases c.readType with
  | readNone => simp
  | readUntil =>
      rw [Option.isSome_map]
      have hframe := search_frame c.readBuffer c.delim
      cases hsearch : c.readBuffer.search c.delim.1 with
      | none =>
          rw [hsearch] at hframe
          simp [← hframe]
      | some pos =>
          rw [hsearch] at hframe
          simp [← hframe]
  | readBytes =>
      by_cases hle : c.rbytes ≤ c.readBuffer.bytes.length <;>
        simp [codeFrame, ByteBuf.len_eq, hle]
  | read =>
      by_cases hempty : c.readBuffer.bytes = []
      · simp [codeFrame, ByteBuf.len_eq, hempty]
      · have hpos : 0 < c.readBuffer.bytes.length := List.length_pos_iff.mpr hempty
        simp [codeFrame, ByteBuf.len_eq, hempty, hpos]

/-- An execution of `read_normal` ends the read exactly under its condition. -/
theorem readNormal_done_iff {c c' : Conn} {timedOut : Bool} {al : Allocs} {rs : List ReadRes}
    {out : Outcome} (h : c.readNormal timedOut al rs = some (c', out)) :
    out = .done ↔ ReadCompletes c timedOut al rs := by
  unfold Conn.readNormal at h
  by_cases htime : c.readExpireTime ≠ 0 ∧ timedOut
  · rw [if_pos htime] at h
    obtain ⟨_, rfl⟩ := Prod.mk.inj (Option.some.inj h)
    exact iff_of_true rfl (Or.inl htime)
  · rw [if_neg htime] at h
    cases hloop : Conn.readLoop c.readBuffer al rs with
    | none => simp [hloop] at h
    | some res =>
        obtain ⟨b, ret⟩ := res
        rw [hloop] at h
        have hsettle : (c.afterLoop b ret).settle al = (c', out) := Option.some.inj h
        have hframe : ((c.afterLoop b ret).checkReadType al).isSome ↔
            ∃ req n, c.request = some req ∧ codeFrame req b.bytes = some n :=
          checkReadType_isSome (c.afterLoop b ret) al
        have hflags : ((c.afterLoop b ret).closed || (c.afterLoop b ret).error) = true ↔
            ret = .zero ∨ (ret.fatal ∧ ret ≠ .bufError) ∨ c.closed ∨ c.error := by
          simp only [Conn.afterLoop, Bool.or_eq_true, Bool.and_eq_true, decide_eq_true_eq]
          tauto
        have hcompletes : ReadCompletes c timedOut al rs ↔
            ((c.afterLoop b ret).checkReadType al).isSome ∨
              ((c.afterLoop b ret).closed || (c.afterLoop b ret).error) = true := by
          rw [hframe, hflags]
          simp [ReadCompletes, htime, hloop]
        rw [hcompletes]
        unfold Conn.settle at hsettle
        cases hcheck : (c.afterLoop b ret).checkReadType al with
        | some c'' =>
            rw [hcheck] at hsettle
            obtain ⟨_, rfl⟩ := Prod.mk.inj hsettle
            simp
        | none =>
            rw [hcheck] at hsettle
            by_cases hends : ((c.afterLoop b ret).closed || (c.afterLoop b ret).error) = true
            · simp only [if_pos hends] at hsettle
              obtain ⟨_, rfl⟩ := Prod.mk.inj hsettle
              simp [hends]
            · simp only [if_neg hends] at hsettle
              obtain ⟨_, rfl⟩ := Prod.mk.inj hsettle
              simp [hends]

/-- An execution of `write_normal` ends the write exactly under its condition. -/
theorem writeNormal_done_iff (c : Conn) (timedOut : Bool) (w : WriteRes) :
    (c.writeNormal timedOut w).2 = .done ↔ WriteCompletes c timedOut w := by
  unfold Conn.writeNormal
  by_cases htime : c.writeExpireTime ≠ 0 ∧ timedOut
  · rw [if_pos htime]
    exact iff_of_true rfl (Or.inl htime)
  · have hwrote : (c.wrote w).2 = true ↔ WriteCompletes c timedOut w := by
      cases w with
      | err e => cases e <;> simp [Conn.wrote, WriteCompletes]
      | wrote n =>
          have hlen := List.length_drop (i := min n c.writeBuffer.bytes.length)
            (l := c.writeBuffer.bytes)
          simp only [Conn.wrote, ByteBuf.len_eq, ByteBuf.bytes_lconsume, WriteCompletes, htime,
            decide_eq_true_eq, false_or, reduceCtorEq, exists_false, WriteRes.wrote.injEq,
            exists_eq_left', hlen]
          omega
    rw [if_neg htime, ← hwrote]
    by_cases hended : (c.wrote w).2
    · simp [hended]
    · simp [hended]

end Spe
