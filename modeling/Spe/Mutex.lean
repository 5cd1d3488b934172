import Mathlib.Logic.Function.Basic

/-!
# Mutexes

A table of mutexes records who owns each of them.  The parties of a system know
nothing of the table: what a party does depends on what it believes to own.
`Agrees` says that the beliefs are right, and there is one lemma for each
operation that tells what the beliefs have to become for them to stay right.
-/

namespace Mutex

variable {L P : Type}

/-- Who owns each mutex. -/
abbrev Table (L P : Type) := L → Option P

/-- No mutex is owned. -/
def Table.free : Table L P := fun _ => none

variable [DecidableEq L]

/-- A party tries to lock a mutex; the Boolean tells whether it got it. -/
def trylock (t : Table L P) (l : L) (p : P) : Table L P × Bool :=
  match t l with
  | none => (Function.update t l (some p), true)
  | some _ => (t, false)

/-- The mutex is released, whoever owns it. -/
def unlock (t : Table L P) (l : L) : Table L P := Function.update t l none

/-- A free mutex is locked. -/
theorem trylock_free {t : Table L P} {l : L} (h : t l = none) (p : P) :
    trylock t l p = (Function.update t l (some p), true) := by
  rw [trylock, h]

/-- A mutex that is owned is not locked again, not even by its owner. -/
theorem trylock_owned {t : Table L P} {l : L} {q : P} (h : t l = some q) (p : P) :
    trylock t l p = (t, false) := by
  rw [trylock, h]

omit [DecidableEq L] in
/-- What the parties believe to own is what they own. -/
def Agrees (t : Table L P) (owns : P → L → Prop) : Prop :=
  ∀ p l, t l = some p ↔ owns p l

omit [DecidableEq L] in
/-- **Mutual exclusion.**  Two parties that believe to own one mutex are the same. -/
theorem Agrees.unique {t : Table L P} {owns : P → L → Prop} (h : Agrees t owns)
    {p q : P} {l : L} (hp : owns p l) (hq : owns q l) : p = q :=
  Option.some.inj (((h p l).mpr hp).symm.trans ((h q l).mpr hq))

omit [DecidableEq L] in
/-- No mutex is owned where nobody believes to own one. -/
theorem Agrees.free {owns : P → L → Prop} (h : ∀ p l, ¬ owns p l) :
    Agrees (Table.free : Table L P) owns := by
  intro p l
  constructor
  · intro hfree
    cases hfree
  · intro howns
    exact absurd howns (h p l)

omit [DecidableEq L] in
/-- The table agrees with equivalent beliefs. -/
theorem Agrees.congr {t : Table L P} {owns owns' : P → L → Prop} (h : Agrees t owns)
    (hsame : ∀ p l, owns' p l ↔ owns p l) : Agrees t owns' := by
  intro p l
  rw [hsame p l]
  exact h p l

/-- A successful `trylock` adds one belief. -/
theorem Agrees.lock {t : Table L P} {owns owns' : P → L → Prop} (h : Agrees t owns)
    {p : P} {l : L} (hfree : t l = none)
    (hadd : ∀ q m, owns' q m ↔ owns q m ∨ (q = p ∧ m = l)) :
    Agrees (Function.update t l (some p)) owns' := by
  intro q m
  rw [hadd q m]
  by_cases hm : m = l
  · subst hm
    have hnone : ¬ owns q m := by
      intro howns
      cases hfree.symm.trans ((h q m).mpr howns)
    rw [Function.update_self]
    constructor
    · intro heq
      exact Or.inr ⟨(Option.some.inj heq).symm, rfl⟩
    · intro hcase
      rcases hcase with howns | ⟨heq, _⟩
      · exact absurd howns hnone
      · rw [heq]
  · rw [Function.update_of_ne hm, h q m]
    constructor
    · exact Or.inl
    · intro hcase
      rcases hcase with howns | ⟨_, heq⟩
      · exact howns
      · exact absurd heq hm

/-- An `unlock` by the owner takes one belief away. -/
theorem Agrees.unlock {t : Table L P} {owns owns' : P → L → Prop} (h : Agrees t owns)
    {p : P} {l : L} (howner : owns p l)
    (hdrop : ∀ q m, owns' q m ↔ owns q m ∧ ¬ (q = p ∧ m = l)) :
    Agrees (Mutex.unlock t l) owns' := by
  intro q m
  rw [hdrop q m, Mutex.unlock]
  by_cases hm : m = l
  · subst hm
    rw [Function.update_self]
    constructor
    · intro hnone
      cases hnone
    · intro hboth
      obtain ⟨howns, hother⟩ := hboth
      exact absurd ⟨h.unique howns howner, rfl⟩ hother
  · rw [Function.update_of_ne hm, h q m]
    constructor
    · intro howns
      exact ⟨howns, fun heq => hm heq.2⟩
    · exact And.left

end Mutex
