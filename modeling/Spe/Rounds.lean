/-!
# The rounds of a loop

A loop is a partial function on its state: `next s = none` means that it is left in the state
`s`.  `after next s k` is the state after `k` rounds; the loop ends when there is a number of
rounds that it does not make.  It ends when a measure goes down (`ends_of_measure`), and it
does not when a set of states is never left (`not_ends_of_stays`).
-/

namespace Rounds

variable {σ : Type} {next : σ → Option σ}

/-- The state after `k` rounds. -/
def after (next : σ → Option σ) : σ → Nat → Option σ
  | s, 0 => some s
  | s, k + 1 => (next s).bind (fun s' => after next s' k)

example : after (fun n : Nat => if n = 0 then none else some (n - 1)) 3 2 = some 1 := by
  simp [after]

/-- The loop ends. -/
def Ends (next : σ → Option σ) (s : σ) : Prop := ∃ k, after next s k = none

/-- The last of some rounds. -/
theorem after_succ (s : σ) (k : Nat) : after next s (k + 1) = (after next s k).bind next := by
  induction k generalizing s with
  | zero =>
      simp only [after, Option.bind_some]
      cases next s <;> rfl
  | succ k ih =>
      cases hs : next s with
      | none => simp [after, hs]
      | some s' =>
          have hlast := ih s'
          simp only [after, hs, Option.bind_some] at hlast ⊢
          exact hlast

/-- What every round keeps holds after any number of rounds. -/
theorem after_invariant (Inv : σ → Prop) {s s' : σ} (hs : Inv s)
    (hnext : ∀ s s', Inv s → next s = some s' → Inv s') {k : Nat} (h : after next s k = some s') :
    Inv s' := by
  induction k generalizing s with
  | zero =>
      obtain rfl := Option.some.inj h
      exact hs
  | succ k ih =>
      obtain ⟨m, hm, hrest⟩ := Option.bind_eq_some_iff.mp h
      exact ih (hnext s m hs hm) hrest

/-- **Measure rule.**  A loop ends when a measure goes down in every round. -/
theorem ends_of_measure (Inv : σ → Prop) (measure : σ → Nat) {s : σ} (hs : Inv s)
    (hnext : ∀ s s', Inv s → next s = some s' → Inv s' ∧ measure s' < measure s) :
    Ends next s := by
  obtain ⟨n, hn⟩ : ∃ n, measure s < n := ⟨_, Nat.lt_succ_self _⟩
  induction n generalizing s with
  | zero => exact absurd hn (Nat.not_lt_zero _)
  | succ n ih =>
      cases hs' : next s with
      | none => exact ⟨1, by simp [after, hs']⟩
      | some s' =>
          obtain ⟨hinv, hless⟩ := hnext s s' hs hs'
          obtain ⟨k, hk⟩ := ih hinv (by omega)
          exact ⟨k + 1, by simpa [after, hs'] using hk⟩

/-- A loop that stays in a set of states does not end. -/
theorem not_ends_of_stays (Inv : σ → Prop) {s : σ} (hs : Inv s)
    (hnext : ∀ s, Inv s → ∃ s', next s = some s' ∧ Inv s') : ¬ Ends next s := by
  rintro ⟨k, hk⟩
  induction k generalizing s with
  | zero => cases hk
  | succ k ih =>
      obtain ⟨s', hs', hinv⟩ := hnext s hs
      exact ih hinv (by simpa [after, hs'] using hk)

end Rounds
