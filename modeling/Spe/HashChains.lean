import Mathlib.Data.List.Nodup
import Mathlib.Logic.Function.Basic

/-!
# Hash chains

A hash table is a row of chains.  An element with the key `k` goes to the head of the
chain `bucket k`, and is looked for in that chain only.  If each element is in the chain
of its key, and no key occurs twice in a chain, the table is a finite map: an element
that is pushed is found under its key, one that is unlinked is not found any more, and
nothing changes for other keys.
-/

namespace HashChains

variable {K ι : Type} [DecidableEq K] (bucket : K → Nat) (keyOf : ι → K)

/-- The chains of a table. -/
abbrev Chains (ι : Type) := Nat → List ι

/-- The first element with the key, in the chain of the key. -/
def lookup (c : Chains ι) (k : K) : Option ι := (c (bucket k)).find? (fun x => keyOf x = k)

/-- An element is put at the head of the chain of a key. -/
def push (c : Chains ι) (k : K) (x : ι) : Chains ι :=
  Function.update c (bucket k) (x :: c (bucket k))

/-- An element is taken out of its chain. -/
def unlink (p : ι → Bool) (c : Chains ι) : Chains ι := fun i => (c i).eraseP p

/-- Each element is in the chain of its key, and no key occurs twice there. -/
structure Filed (c : Chains ι) : Prop where
  placed : ∀ i, ∀ x ∈ c i, bucket (keyOf x) = i
  keys : ∀ i, ((c i).map keyOf).Nodup

variable {bucket : K → Nat} {keyOf : ι → K} {c : Chains ι}

/-- What is found has the key, and is in its chain. -/
theorem of_lookup {k : K} {x : ι} (h : lookup bucket keyOf c k = some x) :
    keyOf x = k ∧ x ∈ c (bucket k) := by
  refine ⟨?_, List.mem_of_find?_eq_some h⟩
  simpa using List.find?_some h

/-- Nothing is found if no element has the key. -/
theorem lookup_eq_none {k : K} :
    lookup bucket keyOf c k = none ↔ ∀ x ∈ c (bucket k), keyOf x ≠ k := by
  unfold lookup
  rw [List.find?_eq_none]
  simp

/-- The element of a filed table is found under its key. -/
theorem Filed.lookup_eq (h : Filed bucket keyOf c) {i : Nat} {x : ι} (hx : x ∈ c i) :
    lookup bucket keyOf c (keyOf x) = some x := by
  have hplaced := h.placed i x hx
  subst hplaced
  cases hfind : lookup bucket keyOf c (keyOf x) with
  | none => exact absurd rfl (lookup_eq_none.mp hfind x hx)
  | some y =>
      obtain ⟨hkey, hy⟩ := of_lookup hfind
      rw [List.inj_on_of_nodup_map (h.keys _) hy hx hkey]

/-- **Pushing.** -/
theorem lookup_push {k : K} {x : ι} (hx : keyOf x = k) (k' : K) :
    lookup bucket keyOf (push bucket c k x) k' =
      if k' = k then some x else lookup bucket keyOf c k' := by
  unfold lookup push
  by_cases hk : k' = k
  · subst hk
    rw [if_pos rfl, Function.update_self, List.find?_cons_of_pos (by simpa using hx)]
  · rw [if_neg hk]
    have hne : ¬ keyOf x = k' := fun heq => hk (heq.symm.trans hx)
    by_cases hb : bucket k' = bucket k
    · rw [hb, Function.update_self, List.find?_cons_of_neg (by simpa using hne)]
    · rw [Function.update_of_ne hb]

/-- A new key is filed. -/
theorem Filed.push (h : Filed bucket keyOf c) {k : K} {x : ι} (hx : keyOf x = k)
    (hnew : lookup bucket keyOf c k = none) : Filed bucket keyOf (push bucket c k x) := by
  unfold HashChains.push
  constructor
  · intro i y hy
    by_cases hi : i = bucket k
    · subst hi
      rw [Function.update_self] at hy
      rcases List.mem_cons.mp hy with rfl | hy
      · rw [hx]
      · exact h.placed _ y hy
    · rw [Function.update_of_ne hi] at hy
      exact h.placed i y hy
  · intro i
    by_cases hi : i = bucket k
    · subst hi
      rw [Function.update_self, List.map_cons, List.nodup_cons]
      refine ⟨?_, h.keys _⟩
      rw [hx, List.mem_map]
      rintro ⟨y, hy, hkey⟩
      exact lookup_eq_none.mp hnew y hy hkey
    · rw [Function.update_of_ne hi]
      exact h.keys i

omit [DecidableEq K] in
/-- A table without one of its elements is filed. -/
theorem Filed.unlink (h : Filed bucket keyOf c) (p : ι → Bool) :
    Filed bucket keyOf (unlink p c) where
  placed := fun i x hx => h.placed i x (List.mem_of_mem_eraseP hx)
  keys := fun i => (h.keys i).sublist (List.eraseP_sublist.map keyOf)

omit [DecidableEq K] in
/-- An element that is unlinked is in no chain. -/
theorem Filed.not_mem_unlink (h : Filed bucket keyOf c) {p : ι → Bool} {i : Nat} {x : ι}
    (hx : x ∈ c i) (hp : ∀ y ∈ c i, p y = true ↔ y = x) : x ∉ HashChains.unlink p c i := by
  obtain ⟨a, front, back, _, ha, hsplit, herase⟩ := List.exists_of_eraseP hx ((hp x hx).mpr rfl)
  obtain rfl : a = x := (hp a (hsplit ▸ List.mem_append_right _ List.mem_cons_self)).mp ha
  have hnodup : (front ++ a :: back).Nodup := hsplit ▸ (h.keys i).of_map
  intro hleft
  have hleft' : a ∈ front ++ back := herase ▸ hleft
  exact (List.nodup_cons.mp (List.nodup_middle.mp hnodup)).1 hleft'

/-- **Unlinking** the element that was found for a key. -/
theorem Filed.lookup_unlink (h : Filed bucket keyOf c) {p : ι → Bool} {k : K} {x : ι}
    (hx : lookup bucket keyOf c k = some x) (hp : ∀ i, ∀ y ∈ c i, p y = true ↔ y = x) (k' : K) :
    lookup bucket keyOf (HashChains.unlink p c) k' =
      if k' = k then none else lookup bucket keyOf c k' := by
  obtain ⟨hkey, hmem⟩ := of_lookup hx
  by_cases hk : k' = k
  · subst hk
    rw [if_pos rfl, lookup_eq_none]
    intro y hy hy'
    -- another element with the key would be the same one, and that is gone
    have hin : y ∈ c (bucket k') := List.mem_of_mem_eraseP hy
    obtain rfl : y = x := List.inj_on_of_nodup_map (h.keys _) hin hmem (hy'.trans hkey.symm)
    exact h.not_mem_unlink hin (hp _) hy
  · rw [if_neg hk]
    cases hfind : lookup bucket keyOf c k' with
    | none =>
        rw [lookup_eq_none] at hfind ⊢
        exact fun y hy => hfind y (List.mem_of_mem_eraseP hy)
    | some y =>
        obtain ⟨hkey', hmem'⟩ := of_lookup hfind
        have hne : ¬ p y = true := by
          rw [hp _ y hmem']
          rintro rfl
          exact hk (hkey'.symm.trans hkey)
        have hleft : y ∈ HashChains.unlink p c (bucket k') :=
          (List.mem_eraseP_of_neg hne).mpr hmem'
        rw [← hkey']
        exact (h.unlink p).lookup_eq hleft

end HashChains
