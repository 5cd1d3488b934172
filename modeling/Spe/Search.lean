import Mathlib.Data.List.Basic

/-!
# Leftmost occurrence of a key in a sequence

`find hay key` is the position of the leftmost occurrence of `key` in `hay`.
The two facts behind every incremental reader are here: an occurrence stays
the leftmost one when the sequence grows at its end (`find_append`), and the
characterisation `find_eq_some` by the prefix before it.  `cut` takes a
sequence apart at the occurrences that a scan from the left finds; it loses
nothing (`intercalate_cut`) and leaves no key in a piece (`not_occursAt_cut`).
-/

namespace Search

variable {α : Type}

/-- `key` occurs in `hay` at position `i`. -/
def OccursAt (key hay : List α) (i : Nat) : Prop :=
  i ≤ hay.length ∧ key <+: hay.drop i

theorem occursAt_zero {key hay : List α} : OccursAt key hay 0 ↔ key <+: hay := by
  simp [OccursAt]

theorem occursAt_succ {key hay : List α} {x : α} {i : Nat} :
    OccursAt key (x :: hay) (i + 1) ↔ OccursAt key hay i := by
  simp [OccursAt]

/-- An occurrence stays where it is when the sequence grows at its end. -/
theorem OccursAt.append {key hay : List α} {i : Nat} (more : List α)
    (h : OccursAt key hay i) : OccursAt key (hay ++ more) i := by
  refine ⟨by simp only [List.length_append]; exact Nat.le_add_right_of_le h.1, ?_⟩
  rw [List.drop_append_of_le_length h.1]
  exact h.2.trans (List.prefix_append _ _)

/-- An occurrence that ends within the first part of a sequence is one of the
first part. -/
theorem OccursAt.of_append {key hay more : List α} {i : Nat}
    (h : OccursAt key (hay ++ more) i) (hend : i + key.length ≤ hay.length) :
    OccursAt key hay i := by
  have hi : i ≤ hay.length := by omega
  refine ⟨hi, ?_⟩
  have hpre := h.2
  rw [List.drop_append_of_le_length hi] at hpre
  exact List.prefix_of_prefix_length_le hpre (List.prefix_append _ _)
    (by simp only [List.length_drop]; omega)

variable [DecidableEq α]

/-- The position of the leftmost occurrence of `key` in `hay`. -/
def find (key : List α) : List α → Option Nat
  | [] => if key = [] then some 0 else none
  | x :: hay =>
      if key <+: x :: hay then some 0 else (find key hay).map (· + 1)

example : find [2, 3] [1, 2, 3, 4] = some 1 := by simp [find]

/-- A key that is not empty does not occur in nothing. -/
theorem find_nil {key : List α} (hkey : key ≠ []) : find key [] = none := if_neg hkey

/-- The empty key is found where the search begins. -/
theorem find_empty (hay : List α) : find [] hay = some 0 := by
  cases hay with
  | nil => rfl
  | cons x hay => exact if_pos (List.nil_prefix)

/-- The search returns the least position at which the key occurs. -/
theorem find_eq_some {key hay : List α} {i : Nat} :
    find key hay = some i ↔ OccursAt key hay i ∧ ∀ j, j < i → ¬ OccursAt key hay j := by
  induction hay generalizing i with
  | nil =>
      by_cases hkey : key = []
      · subst hkey
        constructor
        · intro h
          obtain rfl : 0 = i := by simpa [find] using h
          exact ⟨by simp [OccursAt], by simp⟩
        · intro hboth
          obtain ⟨hi, _⟩ := hboth
          obtain rfl : i = 0 := by simpa [OccursAt] using hi.1
          rfl
      · simp [find, OccursAt, hkey]
  | cons x hay ih =>
      rw [find]
      by_cases hhead : key <+: x :: hay
      · rw [if_pos hhead]
        constructor
        · intro h
          obtain rfl := Option.some.inj h
          exact ⟨occursAt_zero.mpr hhead, by simp⟩
        · intro hboth
          obtain ⟨_, hleast⟩ := hboth
          cases i with
          | zero => rfl
          | succ i => exact absurd (occursAt_zero.mpr hhead) (hleast 0 (Nat.succ_pos i))
      · rw [if_neg hhead]
        cases i with
        | zero =>
            have hno : ¬ OccursAt key (x :: hay) 0 := fun h => hhead (occursAt_zero.mp h)
            simp [hno]
        | succ i =>
            rw [occursAt_succ]
            constructor
            · intro h
              obtain ⟨k, hk, hki⟩ := Option.map_eq_some_iff.mp h
              obtain rfl : k = i := by omega
              obtain ⟨hocc, hleast⟩ := ih.mp hk
              refine ⟨hocc, ?_⟩
              intro j hj
              cases j with
              | zero => exact fun h => hhead (occursAt_zero.mp h)
              | succ j => exact fun h => hleast j (by omega) (occursAt_succ.mp h)
            · intro hboth
              obtain ⟨hocc, hleast⟩ := hboth
              have hk : find key hay = some i := by
                refine ih.mpr ⟨hocc, ?_⟩
                intro j hj h
                exact hleast (j + 1) (by omega) (occursAt_succ.mpr h)
              simp [hk]

/-- The search fails exactly when the key occurs nowhere. -/
theorem find_eq_none {key hay : List α} :
    find key hay = none ↔ ∀ i, ¬ OccursAt key hay i := by
  induction hay with
  | nil =>
      by_cases hkey : key = []
      · simp only [find, hkey, if_pos, reduceCtorEq, false_iff, not_forall, not_not]
        exact ⟨0, by simp [OccursAt]⟩
      · simp [find, OccursAt, hkey]
  | cons x hay ih =>
      rw [find]
      by_cases hhead : key <+: x :: hay
      · rw [if_pos hhead]
        simp only [reduceCtorEq, false_iff, not_forall, not_not]
        exact ⟨0, occursAt_zero.mpr hhead⟩
      · rw [if_neg hhead, Option.map_eq_none_iff, ih]
        constructor
        · intro h i
          cases i with
          | zero => exact fun h => hhead (occursAt_zero.mp h)
          | succ i => exact fun hocc => h i (occursAt_succ.mp hocc)
        · exact fun h i hocc => h (i + 1) (occursAt_succ.mpr hocc)

/-- A found key ends inside the sequence. -/
theorem find_bound {key hay : List α} {i : Nat} (h : find key hay = some i) :
    i + key.length ≤ hay.length := by
  have hocc := (find_eq_some.mp h).1
  have hlen := hocc.2.length_le
  have hi := hocc.1
  simp only [List.length_drop] at hlen
  omega

/-- **Stability.**  The leftmost occurrence stays the leftmost one when the
sequence grows at its end. -/
theorem find_append {key hay : List α} {i : Nat} (more : List α)
    (h : find key hay = some i) : find key (hay ++ more) = some i := by
  have hend := find_bound h
  obtain ⟨hocc, hleast⟩ := find_eq_some.mp h
  refine find_eq_some.mpr ⟨hocc.append more, ?_⟩
  intro j hj hjocc
  exact hleast j hj (hjocc.of_append (by omega))

/-- The leftmost occurrence is the leftmost one of every first part of the
sequence that holds it. -/
theorem find_of_append {key hay : List α} {i : Nat} (more : List α)
    (h : find key (hay ++ more) = some i) (hend : i + key.length ≤ hay.length) :
    find key hay = some i := by
  obtain ⟨hocc, hleast⟩ := find_eq_some.mp h
  refine find_eq_some.mpr ⟨hocc.of_append hend, ?_⟩
  intro j hj hjocc
  exact hleast j hj (hjocc.append more)

/-- The first part of a sequence up to the end of the leftmost occurrence ends
with the key. -/
theorem take_of_find {key hay : List α} {i : Nat} (h : find key hay = some i) :
    hay.take (i + key.length) = hay.take i ++ key := by
  have hocc := (find_eq_some.mp h).1
  obtain ⟨rest, hrest⟩ := hocc.2
  rw [List.take_add, ← hrest, List.take_left]

omit [DecidableEq α] in
/-- A prefix that ends with the key holds an occurrence at its end. -/
theorem occursAt_of_suffix {key hay : List α} {k : Nat} (hk : k ≤ hay.length)
    (h : key <:+ hay.take k) : OccursAt key hay (k - key.length) ∧ key.length ≤ k := by
  obtain ⟨pre, hpre⟩ := h
  have hlen : pre.length + key.length = k := by
    have hcut := congrArg List.length hpre
    rw [List.length_append, List.length_take] at hcut
    omega
  have hi : k - key.length = pre.length := by omega
  refine ⟨⟨by omega, ?_⟩, by omega⟩
  rw [hi]
  refine ⟨hay.drop k, ?_⟩
  have hhay : hay = pre ++ (key ++ hay.drop k) := by
    rw [← List.append_assoc, hpre, List.take_append_drop]
  conv_rhs => rw [hhay]
  rw [List.drop_left]

/-- **Shortest prefix.**  The leftmost occurrence ends the shortest prefix that
ends with the key. -/
theorem shortest_of_find {key hay : List α} {i : Nat} (h : find key hay = some i) :
    key <:+ hay.take (i + key.length) ∧
    ∀ k, k < i + key.length → k ≤ hay.length → ¬ key <:+ hay.take k := by
  constructor
  · exact ⟨hay.take i, (take_of_find h).symm⟩
  · intro k hk hle hsuffix
    obtain ⟨hocc, hlen⟩ := occursAt_of_suffix hle hsuffix
    exact (find_eq_some.mp h).2 (k - key.length) (by omega) hocc

/-- When the key is not found, no prefix ends with it. -/
theorem no_prefix_of_find {key hay : List α} (h : find key hay = none) {k : Nat}
    (hk : k ≤ hay.length) : ¬ key <:+ hay.take k := by
  intro hsuffix
  exact find_eq_none.mp h _ (occursAt_of_suffix hk hsuffix).1

/-- A single element is found where it first stands. -/
theorem find_singleton {left right : List α} {x : α} (h : x ∉ left) :
    find [x] (left ++ x :: right) = some left.length := by
  induction left with
  | nil => simp [find]
  | cons y left ih =>
      have hne : x ≠ y := fun heq => h (heq ▸ List.mem_cons_self)
      have hhead : ¬ [x] <+: y :: (left ++ x :: right) := by simp [hne]
      rw [List.cons_append, find, if_neg hhead, ih (fun hx => h (List.mem_cons_of_mem _ hx))]
      rfl

/-- A single element is not found when it is not there. -/
theorem find_singleton_none {hay : List α} {x : α} : find [x] hay = none ↔ x ∉ hay := by
  constructor
  · intro hnone hmem
    obtain ⟨left, right, rfl, hleft⟩ := List.eq_append_cons_of_mem hmem
    cases (find_singleton hleft).symm.trans hnone
  · intro h
    rw [find_eq_none]
    intro i hi
    obtain ⟨rest, hrest⟩ := hi.2
    have hmem : x ∈ hay.drop i := hrest ▸ List.mem_cons_self
    exact h (List.mem_of_mem_drop hmem)

/-- What stands behind an occurrence is shorter. -/
theorem cut_shorter {key hay : List α} {i : Nat} (hkey : key ≠ []) (h : find key hay = some i) :
    hay.length - (i + key.length) < hay.length := by
  have hbound := find_bound h
  have hpos := List.length_pos_iff.mpr hkey
  omega

/-- What stands between the occurrences of a key that a scan from the left finds, each at the
leftmost position behind the one before; the last piece is the rest.  An empty key cuts
nothing. -/
def cut (key hay : List α) : List (List α) :=
  match h : find key hay with
  | none => [hay]
  | some i =>
      if hkey : key = [] then [hay]
      else
        have _ : hay.length - (i + key.length) < hay.length := cut_shorter hkey h
        hay.take i :: cut key (hay.drop (i + key.length))
termination_by hay.length
decreasing_by simpa only [List.length_drop]

/-- The pieces of a cut that are not empty. -/
def pieces (key hay : List α) : List (List α) := (cut key hay).filter fun piece => piece ≠ []

example : cut [0] [1, 0, 2] = [[1], [2]] := by simp [cut, find]

/-- Nothing is cut where the key does not occur. -/
theorem cut_of_none {key hay : List α} (h : find key hay = none) : cut key hay = [hay] := by
  unfold cut
  split
  · rfl
  · rename_i hsome
    cases h.symm.trans hsome

/-- The leftmost occurrence ends the first piece. -/
theorem cut_of_some {key hay : List α} {i : Nat} (hkey : key ≠ []) (h : find key hay = some i) :
    cut key hay = hay.take i :: cut key (hay.drop (i + key.length)) := by
  conv_lhs => unfold cut
  split
  · rename_i hnone
    cases h.symm.trans hnone
  · rename_i k hsome
    obtain rfl := Option.some.inj (h.symm.trans hsome)
    rw [dif_neg hkey]

/-- There is always a piece. -/
theorem cut_ne_nil (key hay : List α) : cut key hay ≠ [] := by
  unfold cut
  split
  · exact List.cons_ne_nil _ _
  · split <;> exact List.cons_ne_nil _ _

/-- **A cut loses nothing.**  The pieces with the key between them are the sequence. -/
theorem intercalate_cut (key hay : List α) : key.intercalate (cut key hay) = hay := by
  fun_induction cut key hay with
  | case1 hay hnone => simp [List.intercalate]
  | case2 hay i h => simp [List.intercalate]
  | case3 hay i h hkey _ ih =>
      obtain ⟨piece, later, hlater⟩ := List.exists_cons_of_ne_nil
        (cut_ne_nil key (hay.drop (i + key.length)))
      rw [hlater] at ih ⊢
      calc key.intercalate (hay.take i :: piece :: later)
          = hay.take i ++ key ++ key.intercalate (piece :: later) := by
            simp [List.intercalate]
        _ = hay.take (i + key.length) ++ hay.drop (i + key.length) := by
            rw [ih, take_of_find h]
        _ = hay := List.take_append_drop _ _

/-- **A cut leaves no key.**  The key does not occur in a piece. -/
theorem not_occursAt_cut {key hay piece : List α} (hkey : key ≠ []) (h : piece ∈ cut key hay)
    (j : Nat) : ¬ OccursAt key piece j := by
  fun_induction cut key hay with
  | case1 hay hnone =>
      obtain rfl := List.mem_singleton.mp h
      exact find_eq_none.mp hnone j
  | case2 hay i hsome hnil => exact absurd hnil hkey
  | case3 hay i hsome hne _ ih =>
      rcases List.mem_cons.mp h with rfl | hlater
      · intro hocc
        obtain ⟨_, hleast⟩ := find_eq_some.mp hsome
        have hlen := hocc.2.length_le
        have hpos := List.length_pos_iff.mpr hkey
        have hgrown := hocc.append (hay.drop i)
        rw [List.take_append_drop] at hgrown
        simp only [List.length_drop, List.length_take] at hlen
        exact hleast j (by omega) hgrown
      · exact ih hlater

/-- What stands in a piece stood in the sequence. -/
theorem mem_of_mem_cut {key hay piece : List α} {x : α} (h : piece ∈ cut key hay)
    (hx : x ∈ piece) : x ∈ hay := by
  fun_induction cut key hay with
  | case1 hay hnone => exact List.mem_singleton.mp h ▸ hx
  | case2 hay i hsome hnil => exact List.mem_singleton.mp h ▸ hx
  | case3 hay i hsome hne _ ih =>
      rcases List.mem_cons.mp h with rfl | hlater
      · exact List.mem_of_mem_take hx
      · exact List.mem_of_mem_drop (ih hlater)

/-- A single element cuts a sequence as `List.splitOn` does. -/
theorem cut_singleton (x : α) (hay : List α) : cut [x] hay = hay.splitOn x := by
  induction hlen : hay.length using Nat.strongRecOn generalizing hay with
  | ind n ih =>
      by_cases hmem : x ∈ hay
      · obtain ⟨left, right, rfl, hleft⟩ := List.eq_append_cons_of_mem hmem
        have hfind := @find_singleton _ _ left right x hleft
        have hright : (left ++ x :: right).drop (left.length + [x].length) = right := by
          rw [← List.drop_drop, List.drop_left]
          rfl
        have hshort : right.length < n := by
          rw [← hlen, List.length_append, List.length_cons]
          omega
        rw [cut_of_some (List.cons_ne_nil x []) hfind, hright, List.take_left,
          ih right.length hshort right rfl, List.splitOn_append_cons_self_of_not_mem hleft]
      · rw [cut_of_none (find_singleton_none.mpr hmem), List.splitOn_eq_singleton hmem]

/-- What is appended to a sequence goes to its last piece. -/
theorem splitOn_behind (sep : α) (hay : List α) :
    ∃ before last, (last = [] → hay = [] ∨ hay.getLast? = some sep) ∧
      ∀ more, sep ∉ more → (hay ++ more).splitOn sep = before ++ [last ++ more] := by
  by_cases hmem : sep ∈ hay
  · obtain ⟨right, left, hsplit, hright⟩ := List.eq_append_cons_of_mem (List.mem_reverse.mpr hmem)
    have hhay : hay = left.reverse ++ sep :: right.reverse := by
      rw [← List.reverse_reverse hay, hsplit]
      simp
    refine ⟨left.reverse.splitOn sep, right.reverse, ?_, ?_⟩
    · intro hnil
      rw [hhay, hnil]
      exact Or.inr List.getLast?_concat
    · intro more hmore
      have hpiece : (right.reverse ++ more).splitOn sep = [right.reverse ++ more] :=
        List.splitOn_eq_singleton (by simp [hright, hmore])
      rw [hhay, List.append_assoc, List.cons_append, List.splitOn_append_cons_self, hpiece]
  · refine ⟨[], hay, Or.inl, ?_⟩
    intro more hmore
    rw [List.splitOn_eq_singleton (by simp [hmem, hmore]), List.nil_append]

end Search
