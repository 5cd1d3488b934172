import Mathlib.Data.List.Basic

/-!
# Serving framed requests from a stream

A request asks for a frame at the head of a stream: `frame r p` is the length
of the frame when the prefix `p` that has arrived holds a complete one.  A
request is *steady* when a complete frame stays the same frame as more of the
stream arrives.

`serve` answers a list of requests from a stream that is there as a whole.  A
reader that sees the stream in pieces and answers steady requests one by one
keeps `Served`, and whatever the pieces were, when it can go on no further it
has answered what `serve` answers (`Served.complete`).
-/

namespace Framing

/-- How requests find their frames. -/
structure Framer (α Req : Type) where
  frame : Req → List α → Option Nat
  Steady : Req → Prop
  bound : ∀ {r p n}, frame r p = some n → n ≤ p.length
  stable : ∀ {r p n}, Steady r → frame r p = some n → ∀ more, frame r (p ++ more) = some n

variable {α Req : Type} (F : Framer α Req)

/-- Answer requests from the stream `s`: the answers and the rest of the
stream.  A request whose frame is not complete ends it. -/
def Framer.serve : List Req → List α → List (Req × List α) × List α
  | [], s => ([], s)
  | r :: rs, s =>
      match F.frame r s with
      | none => ([], s)
      | some n =>
          let tail := Framer.serve rs (s.drop n)
          ((r, s.take n) :: tail.1, tail.2)

theorem Framer.serve_cons (r : Req) (rs : List Req) (s : List α) :
    F.serve (r :: rs) s =
      match F.frame r s with
      | none => ([], s)
      | some n =>
          ((r, s.take n) :: (F.serve rs (s.drop n)).1, (F.serve rs (s.drop n)).2) := rfl

/-- The requests in `done` were answered from the stream `s`, whose rest is
`rest`. -/
def Served (done : List (Req × List α)) (s rest : List α) : Prop :=
  F.serve (done.map Prod.fst) s = (done, rest)

variable {F}

/-- Nothing is answered yet. -/
theorem served_nil (s : List α) : Served F [] s s := rfl

/-- The first answer, and the others from the rest of the stream. -/
theorem served_cons {r : Req} {frame : List α} {done : List (Req × List α)} {s rest : List α} :
    Served F ((r, frame) :: done) s rest ↔
      ∃ n, F.frame r s = some n ∧ frame = s.take n ∧ Served F done (s.drop n) rest := by
  unfold Served
  rw [List.map_cons, F.serve_cons]
  cases hframe : F.frame r s with
  | none => simp
  | some n =>
      constructor
      · intro h
        obtain ⟨hhead, hrest⟩ := Prod.mk.inj h
        obtain ⟨hfirst, htail⟩ := List.cons.inj hhead
        exact ⟨n, rfl, (Prod.mk.inj hfirst).2.symm, Prod.ext htail hrest⟩
      · intro hboth
        obtain ⟨k, hk, rfl, htail⟩ := hboth
        obtain rfl := Option.some.inj hk
        simp [htail]

/-- The stream is the answers, one after the other, and the rest. -/
theorem Served.bytes {done : List (Req × List α)} {s rest : List α}
    (h : Served F done s rest) : (done.map Prod.snd).flatten ++ rest = s := by
  induction done generalizing s with
  | nil => exact (Prod.mk.inj h).2.symm
  | cons p done ih =>
      obtain ⟨r, frame⟩ := p
      obtain ⟨n, _, rfl, htail⟩ := served_cons.mp h
      have hrest := ih htail
      simp only [List.map_cons, List.flatten_cons, List.append_assoc, hrest,
        List.take_append_drop]

/-- **More of the stream.**  Steady requests keep their answers when the stream
grows. -/
theorem Served.receive {done : List (Req × List α)} {s rest : List α} (more : List α)
    (h : Served F done s rest) (hsteady : ∀ p ∈ done, F.Steady p.1) :
    Served F done (s ++ more) (rest ++ more) := by
  induction done generalizing s with
  | nil =>
      obtain rfl := (Prod.mk.inj h).2
      exact served_nil (s ++ more)
  | cons p done ih =>
      obtain ⟨r, frame⟩ := p
      obtain ⟨n, hframe, rfl, htail⟩ := served_cons.mp h
      have hn := F.bound hframe
      have hgrown := F.stable (hsteady (r, s.take n) (by simp)) hframe more
      refine served_cons.mpr ⟨n, hgrown, (List.take_append_of_le_length hn).symm, ?_⟩
      rw [List.drop_append_of_le_length hn]
      exact ih htail (fun p hp => hsteady p (by simp [hp]))

/-- **One more answer.**  A complete frame at the head of the rest answers the
next request. -/
theorem Served.finish {done : List (Req × List α)} {s rest : List α} {r : Req} {n : Nat}
    (h : Served F done s rest) (hframe : F.frame r rest = some n) :
    Served F (done ++ [(r, rest.take n)]) s (rest.drop n) := by
  induction done generalizing s with
  | nil =>
      obtain rfl := (Prod.mk.inj h).2
      exact served_cons.mpr ⟨n, hframe, rfl, rfl⟩
  | cons p done ih =>
      obtain ⟨q, frame⟩ := p
      obtain ⟨k, hk, rfl, htail⟩ := served_cons.mp h
      exact served_cons.mpr ⟨k, hk, rfl, ih htail⟩

/-- **Completeness.**  When every request is answered, or the next one has no
complete frame in the rest, the answers are those that `serve` gives. -/
theorem Served.complete {done : List (Req × List α)} {s rest : List α} {rs : List Req}
    (h : Served F done s rest)
    (hstop : done.map Prod.fst = rs ∨
      ∃ r, done.map Prod.fst ++ [r] <+: rs ∧ F.frame r rest = none) :
    F.serve rs s = (done, rest) := by
  induction done generalizing s rs with
  | nil =>
      obtain rfl := (Prod.mk.inj h).2
      rcases hstop with rfl | ⟨r, ⟨later, rfl⟩, hnone⟩
      · rfl
      · simp [F.serve_cons, hnone]
  | cons p done ih =>
      obtain ⟨q, frame⟩ := p
      obtain ⟨n, hframe, rfl, htail⟩ := served_cons.mp h
      obtain ⟨later, hrs, hstop'⟩ : ∃ later, rs = q :: later ∧
          (done.map Prod.fst = later ∨
            ∃ r, done.map Prod.fst ++ [r] <+: later ∧ F.frame r rest = none) := by
        rcases hstop with rfl | ⟨r, ⟨later, rfl⟩, hnone⟩
        · exact ⟨done.map Prod.fst, rfl, Or.inl rfl⟩
        · exact ⟨done.map Prod.fst ++ [r] ++ later, rfl,
            Or.inr ⟨r, List.prefix_append _ _, hnone⟩⟩
      rw [hrs, F.serve_cons, hframe]
      simp [ih htail hstop']

end Framing
