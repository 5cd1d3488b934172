import Spe.ConnPhase
import Spe.Epoll

/-!
# The timeout flags of a connection

`connect_timeout`, `read_timeout` and `write_timeout` are set by the handlers, and
reset where an operation is left pending.  A call that completes its operation at
once touches no flag.

So while an operation is pending its flag is clear (`ConnState.Clear`), and the
handler that ends it sets the flag if the time limit is not 0 and the timeout bit of
its task is set.
-/

namespace Spe

open Transition

/-- The three kinds of operations. -/
inductive OpKind
  | read
  | connect
  | flush
  deriving DecidableEq

namespace OpKind

/-- The side whose task waits for the operation. -/
def side : OpKind → Side
  | .read => .read
  | .connect => .read
  | .flush => .write

/-- The flag of the operation. -/
def flag (k : OpKind) (c : Conn) : Bool :=
  match k with
  | .read => c.readTimeout
  | .connect => c.connectTimeout
  | .flush => c.writeTimeout

/-- The time limit of the operation. -/
def expireTime (k : OpKind) (c : Conn) : Nat :=
  match k with
  | .read => c.readExpireTime
  | .connect => c.readExpireTime
  | .flush => c.writeExpireTime

end OpKind

/-- The kind of operation that a call starts. -/
def ConnEvent.starts : ConnEvent → Option OpKind
  | .issue _ _ _ => some .read
  | .connect _ => some .connect
  | .flush _ => some .flush
  | _ => none

/-- The kind of operation whose handler executes, and the timeout bit it sees. -/
def ConnEvent.handles : ConnEvent → Option (OpKind × Bool)
  | .readNormal timedOut _ _ => some (.read, timedOut)
  | .connectNormal timedOut _ => some (.connect, timedOut)
  | .writeNormal timedOut _ => some (.flush, timedOut)
  | _ => none

/-- An event that executes a handler starts nothing. -/
theorem ConnEvent.starts_of_handles {ev : ConnEvent} {op : OpKind × Bool}
    (h : ev.handles = some op) : ev.starts = none := by
  cases ev <;> first | rfl | cases h

/-- The phase after an operation has started. -/
def Phase.started (p : Phase) : OpKind → Phase
  | .read => { p with reading := true }
  | .connect => ⟨true, true, true⟩
  | .flush => { p with writing := true }

/-- The phase after an operation has ended. -/
def Phase.finished (p : Phase) : OpKind → Phase
  | .read => { p with reading := false }
  | .connect => .idle
  | .flush => { p with writing := false }

/-- An operation of the kind is pending. -/
def ConnState.Performs (s : ConnState) (k : OpKind) : Prop :=
  match k with
  | .read => s.conn.readType ≠ .readNone ∧ s.hist.connecting = false
  | .connect => s.conn.readType ≠ .readNone ∧ s.hist.connecting = true
  | .flush => s.conn.writeType ≠ .writeNone ∧ s.hist.connecting = false

/-- The flag of a pending operation is clear. -/
def ConnState.Clear (s : ConnState) : Prop := ∀ k, s.Performs k → k.flag s.conn = false

/-- Reads touch the flag of a read only. -/
theorem Conn.OnlyRead.flag {c c' : Conn} (h : c.OnlyRead c') {k : OpKind} (hk : k ≠ .read) :
    k.flag c' = k.flag c := by
  cases k with
  | read => exact absurd rfl hk
  | connect => exact h.connectTimeout
  | flush => exact h.writeTimeout

/-- A read call that is left pending resets `read_timeout`. -/
theorem issue_flags (c : Conn) (req : Request) (al : Allocs) (r : ReadRes) (k : OpKind) :
    k.flag (c.issue req al r).1 =
      if (c.issue req al r).2 = .pending ∧ k = .read then false else k.flag c := by
  rcases issue_only c req al r with ⟨hout, hkeeps⟩ | ⟨hout, honly, _, htimeout⟩
  · rw [if_neg (fun h => hout h.1)]
    by_cases hk : k = .read
    · subst hk
      exact hkeeps.readTimeout
    · exact hkeeps.toOnlyRead.flag hk
  · by_cases hk : k = .read
    · subst hk
      rw [if_pos ⟨hout, rfl⟩]
      exact htimeout
    · rw [if_neg (fun h => hk h.2)]
      exact honly.flag hk

/-- `read_normal` sets `read_timeout` if there is a time limit and the bit of the task
is set. -/
theorem readNormal_flags {c c' : Conn} {timedOut : Bool} {al : Allocs} {rs : List ReadRes}
    {out : Outcome} (h : c.readNormal timedOut al rs = some (c', out)) (k : OpKind) :
    k.flag c' = (k.flag c ||
      (decide (k = .read) && decide (c.readExpireTime ≠ 0) && timedOut)) := by
  obtain ⟨honly, _, htimeout⟩ := readNormal_only h
  by_cases hk : k = .read
  · subst hk
    rw [decide_eq_true rfl, Bool.true_and]
    exact htimeout
  · rw [honly.flag hk]
    simp [hk]

/-- What `write` answers touches no flag. -/
theorem wrote_flags (c : Conn) (w : WriteRes) (k : OpKind) :
    k.flag (c.wrote w).1 = k.flag c := by
  cases w with
  | wrote n => cases k <;> rfl
  | err e => cases e <;> cases k <;> rfl

/-- A flush that is left pending resets `write_timeout`. -/
theorem flush_flags (c : Conn) (w : WriteRes) (k : OpKind) :
    k.flag (c.flush w).1 =
      if (c.flush w).2 = .pending ∧ k = .flush then false else k.flag c := by
  have hwrote := wrote_flags c w k
  unfold Conn.flush
  split
  · simp
  · dsimp only
    split
    · simpa using hwrote
    · cases k with
      | flush => rfl
      | read => exact hwrote
      | connect => exact hwrote

/-- `write_normal` sets `write_timeout` if there is a time limit and the bit of the task
is set. -/
theorem writeNormal_flags (c : Conn) (timedOut : Bool) (w : WriteRes) (k : OpKind) :
    k.flag (c.writeNormal timedOut w).1 = (k.flag c ||
      (decide (k = .flush) && decide (c.writeExpireTime ≠ 0) && timedOut)) := by
  have hwrote := wrote_flags c w k
  unfold Conn.writeNormal
  by_cases htime : c.writeExpireTime ≠ 0 ∧ timedOut
  · rw [if_pos htime]
    cases k <;> simp [OpKind.flag, Conn.endWrite, htime]
  · have hno : (decide (c.writeExpireTime ≠ 0) && timedOut) = false := by
      simpa using htime
    rw [if_neg htime, Bool.and_assoc, hno, Bool.and_false, Bool.or_false, ← hwrote]
    dsimp only
    split <;> cases k <;> rfl

/-- A connect that is left pending resets `connect_timeout`. -/
theorem connect_flags (c : Conn) (res : Conn.ConnectRes) (k : OpKind) :
    k.flag (c.connect res).1 =
      if (c.connect res).2 = .pending ∧ k = .connect then false else k.flag c := by
  cases res <;> cases k <;> rfl

/-- `connect_normal` sets `connect_timeout` if there is a time limit and the bit of the
task is set. -/
theorem connectNormal_flags (c : Conn) (timedOut soError : Bool) (k : OpKind) :
    k.flag (c.connectNormal timedOut soError) = (k.flag c ||
      (decide (k = .connect) && decide (c.readExpireTime ≠ 0) && timedOut)) := by
  unfold Conn.connectNormal
  dsimp only
  by_cases htime : c.readExpireTime ≠ 0 ∧ timedOut
  · rw [if_pos htime]
    cases k <;> simp [OpKind.flag, htime]
  · have hno : (decide (c.readExpireTime ≠ 0) && timedOut) = false := by
      simpa using htime
    rw [if_neg htime, Bool.and_assoc, hno, Bool.and_false, Bool.or_false]
    cases k <;> rfl

/-- Which operations are pending can be read off the phase. -/
theorem ConnState.performs_phase (s : ConnState) (k : OpKind) :
    s.Performs k ↔
      match k with
      | .read => s.phase.reading = true ∧ s.phase.connecting = false
      | .connect => s.phase.reading = true ∧ s.phase.connecting = true
      | .flush => s.phase.writing = true ∧ s.phase.connecting = false := by
  cases k <;> simp [ConnState.Performs, ConnState.phase]

/-- The same phase has the same pending operations. -/
theorem ConnState.performs_congr {s s' : ConnState} (h : s'.phase = s.phase) (k : OpKind) :
    s'.Performs k ↔ s.Performs k := by
  rw [ConnState.performs_phase, ConnState.performs_phase, h]

/-- Without a `_read_type` nothing waits on the read side. -/
theorem ConnState.not_performs_read (s : ConnState) (h : s.conn.readType = .readNone)
    (k : OpKind) (hside : k.side = .read) : ¬ s.Performs k := by
  cases k with
  | read => exact fun hperforms => hperforms.1 h
  | connect => exact fun hperforms => hperforms.1 h
  | flush => cases hside

/-- Without a `_write_type` nothing waits on the write side. -/
theorem ConnState.not_performs_write (s : ConnState) (h : s.conn.writeType = .writeNone)
    (k : OpKind) (hside : k.side = .write) : ¬ s.Performs k := by
  cases k with
  | read => cases hside
  | connect => cases hside
  | flush => exact fun hperforms => hperforms.1 h

/-- **What a call does** that starts an operation: none waits with its task before, and
it does afterwards if the call leaves it pending; only then a flag is touched, which is
that of the operation. -/
theorem connStep_starts {s s' : ConnState} {ev : ConnEvent} {k : OpKind} {out : Outcome}
    (hcoherent : s.phase.Coherent) (hstarts : ev.starts = some k)
    (hstep : connStep s ev = some (s', out)) :
    (∀ k', k'.side = k.side → ¬ s.Performs k') ∧ s.phase.connecting = false ∧
    s'.phase = (if out = .pending then s.phase.started k else s.phase) ∧
    ∀ k', k'.flag s'.conn = if out = .pending ∧ k' = k then false else k'.flag s.conn := by
  cases ev with
  | issue req al r =>
      obtain rfl : .read = k := Option.some.inj hstarts
      obtain ⟨htype, hissue⟩ := Option.ite_none_right_eq_some.mp hstep
      have hphase := s.issue_phase req al r
      obtain ⟨hconn, _⟩ := s.issue_conn req al r
      have hflags := issue_flags s.conn req al r
      rw [← hconn] at hflags
      rw [Option.some.inj hissue] at hphase hflags
      exact ⟨s.not_performs_read htype,
        hcoherent.idle (Or.inl (by simp [ConnState.phase, htype])), hphase, hflags⟩
  | flush w =>
      obtain rfl : .flush = k := Option.some.inj hstarts
      obtain ⟨htype, hflush⟩ := Option.ite_none_right_eq_some.mp hstep
      have hphase := s.flush_phase w
      have hflags := flush_flags s.conn w
      rw [Option.some.inj hflush] at hphase
      obtain ⟨rfl, rfl⟩ := Prod.mk.inj (Option.some.inj hflush)
      exact ⟨s.not_performs_write htype,
        hcoherent.idle (Or.inr (by simp [ConnState.phase, htype])), hphase, hflags⟩
  | connect res =>
      obtain rfl : .connect = k := Option.some.inj hstarts
      obtain ⟨⟨htype, _⟩, hconnect⟩ := Option.ite_none_right_eq_some.mp hstep
      have hphase := s.connect_phase res
      have hflags := connect_flags s.conn res
      have hquiet := hcoherent.idle (Or.inl (by simp [ConnState.phase, htype]))
      have hsame : { s.phase with connecting := false } = s.phase := by
        ext <;> simp [hquiet]
      rw [hsame] at hphase
      rw [Option.some.inj hconnect] at hphase
      obtain ⟨rfl, rfl⟩ := Prod.mk.inj (Option.some.inj hconnect)
      exact ⟨s.not_performs_read htype, hquiet, hphase, hflags⟩
  | _ => cases hstarts

/-- **What a handler does**: it ends its operation or leaves it pending, and it sets the
flag of the operation if there is a time limit and the bit of the task is set.  Then it
ends the operation. -/
theorem connStep_handles {s s' : ConnState} {ev : ConnEvent} {k : OpKind} {timedOut : Bool}
    {out : Outcome} (hcoherent : s.phase.Coherent) (hhandles : ev.handles = some (k, timedOut))
    (hstep : connStep s ev = some (s', out)) :
    s.Performs k ∧ s'.phase = (if out = .done then s.phase.finished k else s.phase) ∧
    (k.expireTime s.conn ≠ 0 ∧ timedOut = true → out = .done) ∧
    ∀ k', k'.flag s'.conn =
      (k'.flag s.conn || (decide (k' = k) && decide (k.expireTime s.conn ≠ 0) && timedOut)) := by
  cases ev with
  | readNormal t al rs =>
      obtain ⟨rfl, rfl⟩ : .read = k ∧ t = timedOut := Prod.mk.inj (Option.some.inj hhandles)
      obtain ⟨hguard, hread⟩ := Option.ite_none_right_eq_some.mp hstep
      obtain ⟨hconn, _⟩ := ConnState.readNormal_conn hread
      refine ⟨hguard, ?_, ?_, readNormal_flags hconn⟩
      · rcases ConnState.readNormal_phase hread with ⟨rfl, hphase⟩ | ⟨rfl, hphase⟩
        · exact hphase
        · exact hphase
      · intro htime
        exact (readNormal_done_iff hconn).mpr (Or.inl htime)
  | writeNormal t w =>
      obtain ⟨rfl, rfl⟩ : .flush = k ∧ t = timedOut := Prod.mk.inj (Option.some.inj hhandles)
      obtain ⟨hguard, hwrite⟩ := Option.ite_none_right_eq_some.mp hstep
      obtain ⟨rfl, hout⟩ := Prod.mk.inj (Option.some.inj hwrite)
      have hdone := writeNormal_done_iff s.conn t w
      have hout : (s.conn.writeNormal t w).2 = out := hout
      rw [hout] at hdone
      refine ⟨hguard, ?_, fun htime => hdone.mpr (Or.inl htime), writeNormal_flags s.conn t w⟩
      rcases s.writeNormal_phase t w with ⟨hcase, hphase⟩ | ⟨hcase, hphase⟩
      · obtain rfl : out = .done := hout.symm.trans hcase
        exact hphase
      · obtain rfl : out = .pending := hout.symm.trans hcase
        exact hphase
  | connectNormal t soError =>
      obtain ⟨rfl, rfl⟩ : .connect = k ∧ t = timedOut := Prod.mk.inj (Option.some.inj hhandles)
      obtain ⟨hguard, hconnect⟩ := Option.ite_none_right_eq_some.mp hstep
      obtain ⟨rfl, rfl⟩ := Prod.mk.inj (Option.some.inj hconnect)
      obtain ⟨hreading, _⟩ := hcoherent hguard
      exact ⟨⟨of_decide_eq_true hreading, hguard⟩, s.connectNormal_phase t soError, fun _ => rfl,
        connectNormal_flags s.conn t soError⟩
  | _ => cases hhandles

/-- Another call starts and ends nothing, and touches no flag. -/
theorem connStep_else {s s' : ConnState} {ev : ConnEvent} {out : Outcome}
    (hstarts : ev.starts = none) (hhandles : ev.handles = none)
    (hstep : connStep s ev = some (s', out)) :
    s'.phase = s.phase ∧ ∀ k : OpKind, k.flag s'.conn = k.flag s.conn := by
  cases ev with
  | write bs al =>
      obtain ⟨rfl, _⟩ := Prod.mk.inj (Option.some.inj hstep)
      refine ⟨s.write_phase bs al, ?_⟩
      intro k
      unfold ConnState.write Conn.write
      dsimp only
      split <;> cases k <;> rfl
  | setTimeout r w =>
      obtain ⟨rfl, _⟩ := Prod.mk.inj (Option.some.inj hstep)
      exact ⟨rfl, fun k => by cases k <;> rfl⟩
  | useBuffer b =>
      obtain ⟨rfl, _⟩ := Prod.mk.inj (Option.some.inj hstep)
      exact ⟨rfl, fun k => by cases k <;> rfl⟩
  | issue req al r => cases hstarts
  | flush w => cases hstarts
  | connect res => cases hstarts
  | readNormal timedOut al rs => cases hhandles
  | writeNormal timedOut w => cases hhandles
  | connectNormal timedOut soError => cases hhandles

/-- What is pending after an operation has started. -/
theorem ConnState.performs_started {s s' : ConnState} {k k' : OpKind}
    (hquiet : s.phase.connecting = false) (hphase : s'.phase = s.phase.started k)
    (h : s'.Performs k') : k' = k ∨ s.Performs k' := by
  rw [ConnState.performs_phase, hphase] at h
  rw [ConnState.performs_phase]
  cases k <;> cases k' <;> simp_all [Phase.started]

/-- What is pending after an operation has ended. -/
theorem ConnState.performs_finished {s s' : ConnState} {k k' : OpKind}
    (hperforms : s.Performs k) (hphase : s'.phase = s.phase.finished k)
    (h : s'.Performs k') : k' ≠ k ∧ s.Performs k' := by
  rw [ConnState.performs_phase, hphase] at h
  rw [ConnState.performs_phase] at hperforms ⊢
  cases k <;> cases k' <;> simp_all [Phase.finished, Phase.idle]

/-- A pending operation was pending before, or a call has just left it pending. -/
theorem connStep_performs {s s' : ConnState} {ev : ConnEvent} {out : Outcome}
    (hcoherent : s.phase.Coherent) (hstep : connStep s ev = some (s', out)) {k : OpKind}
    (hperforms : s'.Performs k) : s.Performs k ∨ (ev.starts = some k ∧ out = .pending) := by
  cases hstarts : ev.starts with
  | some k' =>
      obtain ⟨_, hquiet, hphase, _⟩ := connStep_starts hcoherent hstarts hstep
      by_cases hpending : out = .pending
      · rw [if_pos hpending] at hphase
        rcases ConnState.performs_started hquiet hphase hperforms with rfl | hbefore
        · exact Or.inr ⟨rfl, hpending⟩
        · exact Or.inl hbefore
      · rw [if_neg hpending] at hphase
        exact Or.inl ((ConnState.performs_congr hphase k).mp hperforms)
  | none =>
      left
      cases hhandles : ev.handles with
      | none =>
          obtain ⟨hphase, _⟩ := connStep_else hstarts hhandles hstep
          exact (ConnState.performs_congr hphase k).mp hperforms
      | some op =>
          obtain ⟨k', timedOut⟩ := op
          obtain ⟨hbefore, hphase, _⟩ := connStep_handles hcoherent hhandles hstep
          by_cases hdone : out = .done
          · rw [if_pos hdone] at hphase
            exact (ConnState.performs_finished hbefore hphase hperforms).2
          · rw [if_neg hdone] at hphase
            exact (ConnState.performs_congr hphase k).mp hperforms

/-- A step keeps the flags of pending operations clear. -/
theorem ConnState.Clear.next {s s' : ConnState} {ev : ConnEvent} {out : Outcome}
    (h : s.Clear) (hcoherent : s.phase.Coherent) (hstep : connStep s ev = some (s', out)) :
    s'.Clear := by
  intro k hperforms
  have hbefore := connStep_performs hcoherent hstep hperforms
  cases hstarts : ev.starts with
  | some k' =>
      obtain ⟨_, _, _, hflags⟩ := connStep_starts hcoherent hstarts hstep
      rw [hflags k]
      split
      · rfl
      · rename_i hother
        rcases hbefore with hperforms | ⟨hk, hpending⟩
        · exact h k hperforms
        · obtain rfl := Option.some.inj (hstarts.symm.trans hk)
          exact absurd ⟨hpending, rfl⟩ hother
  | none =>
      have hperformed : s.Performs k := by
        rcases hbefore with hperformed | ⟨hk, _⟩
        · exact hperformed
        · cases hstarts.symm.trans hk
      cases hhandles : ev.handles with
      | none =>
          obtain ⟨_, hflags⟩ := connStep_else hstarts hhandles hstep
          exact (hflags k).trans (h k hperformed)
      | some op =>
          obtain ⟨k', timedOut⟩ := op
          obtain ⟨hruns, hphase, htime, hflags⟩ := connStep_handles hcoherent hhandles hstep
          rw [hflags k, h k hperformed, Bool.false_or]
          by_contra hset
          -- the flag is set only where the operation ends
          simp only [Bool.and_eq_false_iff, not_or, Bool.not_eq_false, decide_eq_true_eq] at hset
          obtain ⟨⟨rfl, hlimit⟩, htimedOut⟩ := hset
          rw [if_pos (htime ⟨hlimit, htimedOut⟩)] at hphase
          exact (ConnState.performs_finished hruns hphase hperforms).1 rfl

/-- A step keeps a pending connect on both sides. -/
theorem ConnState.coherent_next {s s' : ConnState} {ev : ConnEvent} {out : Outcome}
    (hcoherent : s.phase.Coherent) (hstep : connStep s ev = some (s', out)) :
    s'.phase.Coherent := by
  have hcases : ∀ p : Phase, p.connecting = false → ∀ k, (p.started k).Coherent := by
    intro p hp k
    cases k <;> simp [Phase.started, Phase.Coherent, hp]
  have hends : ∀ p : Phase, p.Coherent → ∀ k, s.Performs k → p = s.phase →
      (p.finished k).Coherent := by
    intro p hp k hk heq
    rw [ConnState.performs_phase, ← heq] at hk
    cases k <;> simp_all [Phase.finished, Phase.Coherent, Phase.idle]
  cases hstarts : ev.starts with
  | some k =>
      obtain ⟨_, hquiet, hphase, _⟩ := connStep_starts hcoherent hstarts hstep
      rw [hphase]
      split
      · exact hcases _ hquiet k
      · exact hcoherent
  | none =>
      cases hhandles : ev.handles with
      | none =>
          obtain ⟨hphase, _⟩ := connStep_else hstarts hhandles hstep
          rw [hphase]
          exact hcoherent
      | some op =>
          obtain ⟨k, timedOut⟩ := op
          obtain ⟨hruns, hphase, _⟩ := connStep_handles hcoherent hhandles hstep
          rw [hphase]
          split
          · exact hends _ hcoherent k hruns rfl
          · exact hcoherent

/-- **Run lemma.**  In every run of a connection the flag of a pending operation is
clear. -/
theorem ConnState.clear_of_run {c : Conn} {fd : Nat} {s : ConnState} {es : List ConnEvent}
    (h : Run connNext anyStep (ConnState.created c fd) es s) : s.Clear := by
  refine (h.invariant (fun s => s.phase.Coherent ∧ s.Clear) ⟨nofun, ?_⟩ ?_).2
  · intro k hperforms
    cases k <;> exact absurd rfl hperforms.1
  · intro s ev s' hboth _ hnext
    obtain ⟨hcoherent, hclear⟩ := hboth
    obtain ⟨⟨s'', out⟩, hstep, rfl⟩ := Option.map_eq_some_iff.mp hnext
    exact ⟨ConnState.coherent_next hcoherent hstep, hclear.next hcoherent hstep⟩

end Spe
