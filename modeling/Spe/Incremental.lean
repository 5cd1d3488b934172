import Mathlib.Data.List.Basic

/-!
# Parsing what has arrived so far

A parser makes turns on a buffer, each of which takes something from its front; it
waits when the buffer does not hold enough for a turn.  If what a turn does is not
changed by what comes later in the buffer, neither is the outcome of a run of turns, and
a run that waits goes on, when more has arrived, as if everything had been there from the
beginning (`Machine.run_more`).

`Machine.Takes s w s'` says that from the state `s` the parser reads the frame `w` to its
end.  Of a proper part of a frame it has waited for the rest (`Machine.Takes.part`).

A reader that delivers one piece at a time and handles at most one frame after each
piece lags behind when a piece completes several frames: `handled`.
-/

namespace Incremental

variable {σ α : Type}

/-- What a turn does. -/
inductive Turn (σ α : Type)
  | wait
  | more (s : σ) (left : List α)
  | done (s : σ) (left : List α)
  | failed

/-- The turn, with more in the buffer. -/
def Turn.feed (x : List α) : Turn σ α → Turn σ α
  | .wait => .wait
  | .more s left => .more s (left ++ x)
  | .done s left => .done s (left ++ x)
  | .failed => .failed

/-- A parser: what comes later does not change a turn, and a turn makes progress. -/
structure Machine (σ α : Type) where
  turn : σ → List α → Turn σ α
  stable : ∀ s b x, turn s b ≠ .wait → turn s (b ++ x) = (turn s b).feed x
  shorter : ∀ s b s' left, turn s b = .more s' left → left.length < b.length

/-- How a run of turns ends. -/
inductive Outcome (σ α : Type)
  | waits (s : σ) (left : List α)
  | done (s : σ) (left : List α)
  | failed

namespace Machine

variable (m : Machine σ α)

/-- Turns, until one waits, is done or fails; without fuel they still go on. -/
def loop : Nat → σ → List α → Option (Outcome σ α)
  | 0, _, _ => none
  | fuel + 1, s, b =>
      match m.turn s b with
      | .wait => some (.waits s b)
      | .more s' left => loop fuel s' left
      | .done s' left => some (.done s' left)
      | .failed => some .failed

/-- A run of turns on a buffer. -/
def run (s : σ) (b : List α) : Option (Outcome σ α) := m.loop (b.length + 1) s b

variable {m}

/-- More fuel than there is in the buffer changes nothing. -/
theorem loop_fuel {n k : Nat} {s : σ} {b : List α} (hn : b.length < n) (hk : b.length < k) :
    m.loop n s b = m.loop k s b := by
  induction n generalizing k s b with
  | zero => exact absurd hn (Nat.not_lt_zero _)
  | succ n ih =>
      obtain ⟨k, rfl⟩ : ∃ j, k = j + 1 := ⟨k - 1, by omega⟩
      rw [loop, loop]
      cases hturn : m.turn s b with
      | wait => rfl
      | done s' left => rfl
      | failed => rfl
      | more s' left =>
          have hshort := m.shorter s b s' left hturn
          exact ih (by omega) (by omega)

/-- A run, after its first turn. -/
theorem run_eq (s : σ) (b : List α) :
    m.run s b = match m.turn s b with
      | .wait => some (.waits s b)
      | .more s' left => m.run s' left
      | .done s' left => some (.done s' left)
      | .failed => some .failed := by
  unfold run
  rw [loop]
  cases hturn : m.turn s b with
  | wait => rfl
  | done s' left => rfl
  | failed => rfl
  | more s' left => exact loop_fuel (m.shorter s b s' left hturn) (Nat.lt_succ_self _)

/-- **A run comes to an end**, and one that waits does so before its next turn. -/
theorem run_ends (s : σ) (b : List α) :
    ∃ out, m.run s b = some out ∧
      ∀ s' left, out = .waits s' left → m.turn s' left = .wait := by
  induction h : b.length using Nat.strongRecOn generalizing s b with
  | _ n ih =>
      subst h
      rw [run_eq]
      cases hturn : m.turn s b with
      | wait =>
          refine ⟨_, rfl, ?_⟩
          rintro s' left ⟨⟩
          exact hturn
      | done s' left => exact ⟨_, rfl, by rintro _ _ ⟨⟩⟩
      | failed => exact ⟨_, rfl, by rintro _ _ ⟨⟩⟩
      | more s' left => exact ih _ (m.shorter s b s' left hturn) s' left rfl

/-- **More of the buffer.**  A run that ends does so in the same way when more has arrived,
and one that waits goes on from there. -/
theorem run_more (s : σ) (b x : List α) :
    m.run s (b ++ x) = match m.run s b with
      | none => none
      | some (.waits s' left) => m.run s' (left ++ x)
      | some (.done s' left) => some (.done s' (left ++ x))
      | some .failed => some .failed := by
  induction h : b.length using Nat.strongRecOn generalizing s b with
  | _ n ih =>
      subst h
      rw [m.run_eq s b]
      cases hturn : m.turn s b with
      | wait => rfl
      | done s' left =>
          rw [run_eq, m.stable s b x (by simp [hturn]), hturn]
          rfl
      | failed =>
          rw [run_eq, m.stable s b x (by simp [hturn]), hturn]
          rfl
      | more s' left =>
          rw [run_eq, m.stable s b x (by simp [hturn]), hturn]
          exact ih _ (m.shorter s b s' left hturn) s' left rfl

/-- A run whose first turn fails or goes on. -/
theorem run_of_ite {s s' : σ} {b left : List α} {p : Prop} [Decidable p]
    (h : m.turn s b = if p then .failed else .more s' left) :
    m.run s b = if p then some .failed else m.run s' left := by
  rw [run_eq, h]
  by_cases hp : p
  · rw [if_pos hp, if_pos hp]
  · rw [if_neg hp, if_neg hp]

/-- What every turn keeps holds of the state in which a run is done. -/
theorem run_done_keeps (P : σ → Prop)
    (hmore : ∀ s b s' left, P s → m.turn s b = .more s' left → P s')
    (hdone : ∀ s b s' left, P s → m.turn s b = .done s' left → P s')
    {s s' : σ} {b left : List α} (hs : P s) (hrun : m.run s b = some (.done s' left)) : P s' := by
  induction h : b.length using Nat.strongRecOn generalizing s b with
  | _ n ih =>
      subst h
      rw [run_eq] at hrun
      cases hturn : m.turn s b with
      | wait => simp [hturn] at hrun
      | failed => simp [hturn] at hrun
      | done s₁ left₁ =>
          simp only [hturn, Option.some.injEq, Outcome.done.injEq] at hrun
          obtain ⟨rfl, rfl⟩ := hrun
          exact hdone s b _ _ hs hturn
      | more s₁ left₁ =>
          simp only [hturn] at hrun
          exact ih _ (m.shorter s b s₁ left₁ hturn) (hmore s b _ _ hs hturn) hrun rfl

/-- A run is done with a turn that is done. -/
theorem run_done_turn {s s' : σ} {b left : List α} (hrun : m.run s b = some (.done s' left)) :
    ∃ s₁ b₁, m.turn s₁ b₁ = .done s' left := by
  induction h : b.length using Nat.strongRecOn generalizing s b with
  | _ n ih =>
      subst h
      rw [run_eq] at hrun
      cases hturn : m.turn s b with
      | wait => simp [hturn] at hrun
      | failed => simp [hturn] at hrun
      | done s₁ left₁ =>
          simp only [hturn, Option.some.injEq, Outcome.done.injEq] at hrun
          obtain ⟨rfl, rfl⟩ := hrun
          exact ⟨s, b, hturn⟩
      | more s₁ left₁ =>
          simp only [hturn] at hrun
          exact ih _ (m.shorter s b s₁ left₁ hturn) hrun rfl

/-- From the state `s` the frame `w` is read to its end. -/
def Takes (m : Machine σ α) (s : σ) (w : List α) (s' : σ) : Prop :=
  ∀ x, m.run s (w ++ x) = some (.done s' x)

/-- It is enough that nothing follows the frame. -/
theorem Takes.of_run {s s' : σ} {w : List α} (h : m.run s w = some (.done s' [])) :
    m.Takes s w s' := by
  intro x
  rw [run_more, h]
  rfl

/-- **Part of a frame.**  The run waits for the rest of it. -/
theorem Takes.part {s s' : σ} {w p q : List α} (h : m.Takes s w s') (hw : w = p ++ q)
    (hq : q ≠ []) :
    ∃ s₁ left, m.run s p = some (.waits s₁ left) ∧ ∀ x, m.run s₁ (left ++ x) = m.run s (p ++ x) := by
  have hwhole := h []
  rw [List.append_nil, hw, run_more] at hwhole
  obtain ⟨out, hout, _⟩ := m.run_ends s p
  rw [hout] at hwhole
  cases out with
  | waits s₁ left =>
      refine ⟨s₁, left, hout, ?_⟩
      intro x
      rw [run_more s p x, hout]
  | done s₁ left =>
      simp only [Option.some.injEq, Outcome.done.injEq, List.append_eq_nil_iff] at hwhole
      exact absurd hwhole.2.2 hq
  | failed => cases hwhole

end Machine

/-- How many frames are handled after each piece, if `complete k` of them are complete after
the piece `k`, and one at most is handled after each piece. -/
def handled (complete : Nat → Nat) : Nat → Nat
  | 0 => 0
  | k + 1 => min (handled complete k + 1) (complete (k + 1))

/-- It matters only what is complete up to there. -/
theorem handled_congr {complete complete' : Nat → Nat} {k : Nat}
    (h : ∀ j ≤ k, complete j = complete' j) : handled complete k = handled complete' k := by
  induction k with
  | zero => rfl
  | succ k ih =>
      rw [handled, handled, ih (fun j hj => h j (Nat.le_succ_of_le hj)), h (k + 1) (Nat.le_refl _)]

/-- **Lagging behind.**  All `n` frames are handled after `k` pieces exactly if there never
were more frames to complete than pieces to come. -/
theorem le_handled_iff {complete : Nat → Nat} (hstart : complete 0 = 0) {n k : Nat} :
    n ≤ handled complete k ↔ ∀ j ≤ k, n ≤ complete j + (k - j) := by
  induction k generalizing n with
  | zero =>
      constructor
      · intro h j hj
        obtain rfl := Nat.le_zero.mp hj
        rw [hstart]
        exact h
      · intro h
        have hzero := h 0 (Nat.le_refl 0)
        rw [hstart] at hzero
        exact hzero
  | succ k ih =>
      have hpred : n ≤ handled complete k + 1 ↔ n - 1 ≤ handled complete k := by omega
      rw [handled, Nat.le_min, hpred, ih]
      constructor
      · rintro ⟨hbefore, hlast⟩ j hj
        rcases Nat.lt_or_eq_of_le hj with hlt | rfl
        · have hj' := hbefore j (Nat.le_of_lt_succ hlt)
          omega
        · omega
      · intro h
        refine ⟨?_, ?_⟩
        · intro j hj
          have hj' := h j (Nat.le_succ_of_le hj)
          omega
        · have hlast := h (k + 1) (Nat.le_refl _)
          omega

end Incremental
