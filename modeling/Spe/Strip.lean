import Mathlib.Data.List.DropRight

/-!
# Stripping the ends of a sequence

`strip p l` is `l` without its longest prefix and its longest suffix of elements that satisfy
`p`.  `Stripped p l mid` says the same of a result without an algorithm: what is around `mid`
satisfies `p`, and its ends do not.  The two agree (`stripped_iff`), so a stripped sequence is
known by its parts.
-/

namespace Strip

variable {α : Type} {p : α → Bool} {l mid : List α}

/-- `l` without its longest prefix and its longest suffix in `p`. -/
def strip (p : α → Bool) (l : List α) : List α := (l.dropWhile p).rdropWhile p

/-- Around `mid` stand elements in `p`, and its ends are none. -/
structure Stripped (p : α → Bool) (l mid : List α) : Prop where
  parts : ∃ left right, l = left ++ mid ++ right ∧
    (∀ c ∈ left, p c = true) ∧ ∀ c ∈ right, p c = true
  first : ∀ c, mid.head? = some c → p c = false
  last : ∀ c, mid.getLast? = some c → p c = false

/-- The same from the other end. -/
theorem Stripped.reverse (h : Stripped p l mid) : Stripped p l.reverse mid.reverse := by
  obtain ⟨⟨left, right, rfl, hleft, hright⟩, hfirst, hlast⟩ := h
  refine ⟨⟨right.reverse, left.reverse, by simp, ?_, ?_⟩, ?_, ?_⟩
  · exact fun c hc => hright c (List.mem_reverse.mp hc)
  · exact fun c hc => hleft c (List.mem_reverse.mp hc)
  · intro c hc
    exact hlast c (by rwa [List.head?_reverse] at hc)
  · intro c hc
    exact hfirst c (by rwa [List.getLast?_reverse] at hc)

/-- What is dropped before a sequence that does not begin in `p`. -/
theorem dropWhile_of_first {left : List α} (hleft : ∀ c ∈ left, p c = true)
    (hfirst : ∀ c, mid.head? = some c → p c = false) : (left ++ mid).dropWhile p = mid := by
  rw [List.dropWhile_append_of_pos hleft]
  cases mid with
  | nil => rfl
  | cons c mid => exact List.dropWhile_cons_of_neg (by simp [hfirst c rfl])

/-- Nothing is left of a sequence in `p`. -/
theorem strip_nil (h : ∀ c ∈ l, p c = true) : strip p l = [] := by
  unfold strip
  rw [List.dropWhile_eq_nil_iff.mpr h]
  rfl

/-- The parts of a sequence that is stripped. -/
theorem strip_spec (p : α → Bool) (l : List α) : Stripped p l (strip p l) := by
  obtain ⟨right, hright⟩ : strip p l <+: l.dropWhile p := List.rdropWhile_prefix _ _
  have hsame : right = (l.dropWhile p).rtakeWhile p :=
    List.append_cancel_left (hright.trans List.rdropWhile_append_rtakeWhile.symm)
  refine ⟨⟨l.takeWhile p, right, ?_, ?_, ?_⟩, ?_, ?_⟩
  · rw [List.append_assoc, hright, List.takeWhile_append_dropWhile]
  · exact fun c hc => List.mem_takeWhile_imp hc
  · rw [hsame]
    exact fun c hc => List.mem_rtakeWhile_imp hc
  · intro c hc
    have hhead : (l.dropWhile p).head? = some c := by
      rw [← hright, List.head?_append, hc]
      rfl
    have hnot := List.head?_dropWhile_not p l
    rw [hhead] at hnot
    simpa using hnot
  · intro c hc
    have hne : strip p l ≠ [] := by
      intro hnil
      rw [hnil] at hc
      cases hc
    have hnot := List.rdropWhile_last_not p (l.dropWhile p) hne
    have hend : (strip p l).getLast hne = c :=
      Option.some.inj ((List.getLast?_eq_some_getLast hne).symm.trans hc)
    rw [← hend]
    exact eq_false_of_ne_true hnot

/-- **Stripping.**  The parts determine what is left. -/
theorem stripped_iff : Stripped p l mid ↔ mid = strip p l := by
  constructor
  · rintro ⟨⟨left, right, rfl, hleft, hright⟩, hfirst, hlast⟩
    cases mid with
    | nil =>
        refine (strip_nil ?_).symm
        intro c hc
        rw [List.append_nil] at hc
        exact (List.mem_append.mp hc).elim (hleft c) (hright c)
    | cons c mid =>
        have hfront : (left ++ (c :: mid ++ right)).dropWhile p = c :: mid ++ right :=
          dropWhile_of_first hleft fun d hd => hfirst d hd
        have hback : (right.reverse ++ (c :: mid).reverse).dropWhile p = (c :: mid).reverse :=
          dropWhile_of_first (fun d hd => hright d (List.mem_reverse.mp hd))
            fun d hd => hlast d (by rwa [List.head?_reverse] at hd)
        unfold strip
        rw [List.append_assoc, hfront, List.rdropWhile, List.reverse_append, hback,
          List.reverse_reverse]
  · rintro rfl
    exact strip_spec p l

/-- What stands around a sequence in `p` makes no difference. -/
theorem strip_padded {left right : List α} (l : List α) (hleft : ∀ c ∈ left, p c = true)
    (hright : ∀ c ∈ right, p c = true) : strip p (left ++ l ++ right) = strip p l := by
  obtain ⟨⟨before, behind, hparts, hbefore, hbehind⟩, hfirst, hlast⟩ := strip_spec p l
  refine (stripped_iff.mp ⟨⟨left ++ before, behind ++ right, ?_, ?_, ?_⟩, hfirst, hlast⟩).symm
  · conv_lhs => rw [hparts]
    simp only [List.append_assoc]
  · exact fun c hc => (List.mem_append.mp hc).elim (hleft c) (hbefore c)
  · exact fun c hc => (List.mem_append.mp hc).elim (hbehind c) (hright c)

/-- Stripping again changes nothing. -/
theorem strip_idempotent (p : α → Bool) (l : List α) : strip p (strip p l) = strip p l := by
  obtain ⟨_, hfirst, hlast⟩ := strip_spec p l
  exact (stripped_iff.mp ⟨⟨[], [], by simp, by simp, by simp⟩, hfirst, hlast⟩).symm

/-- The first element of what is left is the first one that is not in `p`. -/
theorem Stripped.head?_eq (h : Stripped p l mid) : mid.head? = l.find? fun c => !p c := by
  obtain ⟨⟨left, right, rfl, hleft, hright⟩, hfirst, _⟩ := h
  have hnone : ∀ side : List α, (∀ c ∈ side, p c = true) → (side.find? fun c => !p c) = none := by
    intro side hside
    rw [List.find?_eq_none]
    intro c hc
    simp [hside c hc]
  rw [List.find?_append, List.find?_append, hnone left hleft, hnone right hright, Option.none_or,
    Option.or_none]
  cases mid with
  | nil => rfl
  | cons c mid =>
      have hc := hfirst c rfl
      rw [List.find?_cons_of_pos (by simp [hc])]
      rfl

/-- The last element of what is left is the last one that is not in `p`. -/
theorem Stripped.getLast?_eq (h : Stripped p l mid) :
    mid.getLast? = l.reverse.find? fun c => !p c := by
  rw [← h.reverse.head?_eq, List.head?_reverse]

end Strip
