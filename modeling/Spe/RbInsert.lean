import Spe.RbShape

/-!
# Insertion into the tree in memory

`rb_insert_color` on memory does what the repair loop does on the tree
(`rbInsertColor_spec`).  It needs that the tree was red-black before the node was linked:
the grandparent, which it follows without a test, is there because a red node is never the
root.
-/

namespace Spe

open RedBlack
open Cells (Holds)

variable {α : Type} {A : Addressing α} {m : RbMem} {F : Multiset (Word × RbNode)}

/-- The loop is left at a node whose parent is black. -/
theorem rbInsertColorLoop_black {t : RbTree α} {p : Hop α} {path : List (Hop α)} (fuel : Nat)
    (h : m.Represents A (plug t (p :: path)) F) (ht : t ≠ .nil) (hp : p.color = .black) :
    rbInsertColorLoop (fuel + 1) (A.ptr t) m = some m := by
  cases t with
  | nil => exact absurd rfl ht
  | node c l x r =>
      have hred := rbCell_isRed p.side p.color (A.addr x) (A.ptr p.sibling)
        (aligned_above A aligned_zero path)
      have hparent := rbCell_parent .left c (A.ptr l) (A.ptr r) (A.aligned p.key)
      rw [hp] at hred
      simp only [rbInsertColorLoop, ptr_node, h.node, Option.bind_eq_bind, Option.bind_some,
        above_cons, hparent, A.ne_zero, if_false, h.parent, hp, hred, reduceCtorEq, decide_false,
        Bool.false_eq_true, not_false_eq_true, if_true]

/-- The loop is left at the root. -/
theorem rbInsertColorLoop_root {t : RbTree α} (fuel : Nat) (h : m.Represents A t F)
    (ht : t ≠ .nil) : rbInsertColorLoop (fuel + 1) (A.ptr t) m = some m := by
  cases t with
  | nil => exact absurd rfl ht
  | node c l x r =>
      have hpos : m.Represents A (plug (.node c l x r) []) F := h
      have hparent := rbCell_parent .left c (A.ptr l) (A.ptr r) aligned_zero
      simp only [rbInsertColorLoop, ptr_node, hpos.node, Option.bind_eq_bind, Option.bind_some,
        Addressing.above, hparent, if_true]

/-- The last rotation, of the grandparent, and the test of the loop after it. -/
theorem rbTurn_spec {s : RbSide} {c d : Color} {x y : α} {t inner uncle : RbTree α}
    {path : List (Hop α)} (fuel : Nat)
    (h : m.Represents A (plug t (⟨s, c, y, inner⟩ :: ⟨s, d, x, uncle⟩ :: path)) F)
    (ht : t ≠ .nil) :
    ∃ m', rbTurn s (A.addr y) (A.addr x) m = some m' ∧
      rbInsertColorLoop (fuel + 1) (A.ptr t) m' = some m' ∧
      m'.Represents A
        (plug inner (⟨s, .red, x, uncle⟩ :: ⟨s.other, .black, y, t⟩ :: path)) F := by
  obtain ⟨m₁, hm₁, h₁⟩ := paint_parent_spec (f := RbNode.rbSetBlack) (d := .black) h
    (fun _ _ _ _ => rbCell_setBlack ..)
  obtain ⟨m₂, hm₂, h₂⟩ := paint_parent_spec (t := (Hop.mk s .black y inner).attach t)
    (f := RbNode.rbSetRed) (d := .red) h₁ (fun _ _ _ hp => rbCell_setRed _ _ _ _ hp)
  have hturn : m₂.Represents A
      (plug inner (⟨s.other, .black, y, t⟩ :: ⟨s, .red, x, uncle⟩ :: path)) F := by
    rw [← plug_sibling]
    exact h₂
  obtain ⟨m₃, hm₃, h₃⟩ := rbRotate_spec hturn
  refine ⟨m₃, ?_, ?_, h₃⟩
  · simp only [rbTurn, hm₁, hm₂, hm₃, Option.bind_eq_bind, Option.bind_some]
  · have hleft : m₃.Represents A
        (plug t (⟨s, .black, y, (Hop.mk s .red x uncle).attach inner⟩ :: path)) F := by
      rw [plug_sibling]
      exact h₃
    exact rbInsertColorLoop_black fuel hleft ht rfl

/-- Recolouring under a red uncle. -/
theorem rbRecolor_spec {p g : Hop α} {t : RbTree α} {path : List (Hop α)}
    (h : m.Represents A (plug t (p :: g :: path)) F) (huncle : g.sibling.isRed = true) :
    ∃ m', rbRecolor (A.ptr g.sibling) (A.addr p.key) (A.addr g.key) m = some m' ∧
      m'.Represents A (plug (({ g with color := .red, sibling := g.sibling.paint .black } :
        Hop α).attach (({ p with color := .black } : Hop α).attach t)) path) F := by
  obtain ⟨s, c, y, inner⟩ := p
  obtain ⟨s', d, x, uncle⟩ := g
  cases uncle with
  | nil => simp at huncle
  | node e l z r =>
      have hsib : m.Represents A (plug (.node e l z r)
          (⟨s'.other, d, x, (Hop.mk s c y inner).attach t⟩ :: path)) F := by
        rw [← plug_sibling]
        exact h
      obtain ⟨m₁, hm₁, h₁⟩ := paint_spec (f := RbNode.rbSetBlack) (d := .black) hsib
        (fun _ _ _ _ => rbCell_setBlack ..)
      have hparent : m₁.Represents A (plug t
          (⟨s, c, y, inner⟩ :: ⟨s', d, x, .node .black l z r⟩ :: path)) F := by
        rw [← plug_sibling] at h₁
        exact h₁
      obtain ⟨m₂, hm₂, h₂⟩ := paint_parent_spec (f := RbNode.rbSetBlack) (d := .black) hparent
        (fun _ _ _ _ => rbCell_setBlack ..)
      obtain ⟨m₃, hm₃, h₃⟩ := paint_parent_spec (t := (Hop.mk s .black y inner).attach t)
        (f := RbNode.rbSetRed) (d := .red) h₂ (fun _ _ _ hp => rbCell_setRed _ _ _ _ hp)
      refine ⟨m₃, ?_, h₃⟩
      simp only [rbRecolor, ptr_node, hm₁, hm₂, hm₃, Option.bind_eq_bind, Option.bind_some]

/-- A round of the loop at a node with a red parent. -/
theorem rbInsertColorLoop_round {p g : Hop α} {t : RbTree α} {path : List (Hop α)} (fuel : Nat)
    (h : m.Represents A (plug t (p :: g :: path)) F) (ht : t ≠ .nil) (hp : p.color = .red) :
    rbInsertColorLoop (fuel + 1) (A.ptr t) m =
      if g.sibling.isRed then
        (rbRecolor (A.ptr g.sibling) (A.addr p.key) (A.addr g.key) m).bind
          (rbInsertColorLoop fuel (A.addr g.key))
      else if p.side = g.side then
        (rbTurn g.side (A.addr p.key) (A.addr g.key) m).bind (rbInsertColorLoop fuel (A.ptr t))
      else
        (rbRotate g.side.other (A.addr p.key) m).bind fun m =>
          (rbTurn g.side (A.ptr t) (A.addr g.key) m).bind
            (rbInsertColorLoop fuel (A.addr p.key)) := by
  cases t with
  | nil => exact absurd rfl ht
  | node c l x r =>
      have hg : m.Represents A (plug (p.attach (.node c l x r)) (g :: path)) F := h
      have hparent := rbCell_parent .left c (A.ptr l) (A.ptr r) (A.aligned p.key)
      have hred : (rbCell p.side (A.addr g.key) p.color (A.addr x) (A.ptr p.sibling)).rbIsRed =
          true := by
        rw [rbCell_isRed _ _ _ _ (A.aligned g.key), hp]
        rfl
      have hgparent := rbCell_parent p.side p.color (A.addr x) (A.ptr p.sibling)
        (A.aligned g.key)
      have hgcell := hg.parent
      rw [ptr_attach] at hgcell
      have hside := hg.side_eq (Or.inl (attach_ne_nil p _))
      rw [ptr_attach] at hside
      have huncle : m.isRedAt (A.ptr g.sibling) = some g.sibling.isRed := by
        have hsib := hg
        rw [plug_sibling] at hsib
        exact hsib.isRedAt
      have hinside : (rbCell p.side (A.addr g.key) p.color (A.addr x) (A.ptr p.sibling)).child
          g.side.other = A.addr x ↔ p.side ≠ g.side := by
        have hne := h.ptr_ne (Or.inl ht)
        by_cases hs : p.side = g.side
        · rw [← hs, rbCell_child_other]
          exact iff_of_false hne (by simp)
        · have hother : g.side.other = p.side := by
            cases hg : g.side <;> cases hp : p.side <;> simp_all [RedBlack.Side.other]
          rw [hother, rbCell_child]
          exact iff_of_true rfl hs
      simp only [rbInsertColorLoop, ptr_node, h.node, Option.bind_eq_bind, Option.bind_some,
        above_cons, hparent, A.ne_zero, if_false, h.parent, hred, hgparent, hgcell,
        hside, rbCell_child_other, huncle, hinside, ne_eq, ite_not]
      rfl

theorem red_of_not_black {c : Color} (h : ¬ c = .black) : c = .red := by
  cases c with
  | red => rfl
  | black => exact absurd rfl h

/-- The loop of `rb_insert_color` makes the tree of the repair loop, but for the colour of
the root. -/
theorem rbInsertColorLoop_spec {t : RbTree α} {path : List (Hop α)} {n : Nat}
    (ht : Balanced t n) (hred : t.isRed = true) (hpath : Context path n)
    (h : m.Represents A (plug t path) F) {fuel : Nat} (hfuel : path.length + 2 ≤ fuel) :
    ∃ m' u, rbInsertColorLoop fuel (A.ptr t) m = some m' ∧ m'.Represents A u F ∧
      u ≠ .nil ∧ u.paint .black = insertColor t path := by
  have hne : t ≠ .nil := by
    rintro rfl
    simp at hred
  induction t, path using insertColor.induct generalizing n m fuel with
  | case1 t =>
      obtain ⟨fuel, rfl⟩ := Nat.exists_eq_add_of_le' (Nat.le_of_add_left_le hfuel)
      exact ⟨m, t, rbInsertColorLoop_root _ h hne, h, hne, rfl⟩
  | case2 t p =>
      obtain ⟨fuel, rfl⟩ := Nat.exists_eq_add_of_le' (Nat.le_of_add_left_le hfuel)
      cases hpath with
      | black hcolor _ _ =>
          exact ⟨m, p.attach t, rbInsertColorLoop_black _ h hne hcolor, h, attach_ne_nil p t, rfl⟩
      | red _ _ _ habove _ => exact habove.elim
  | case3 t p g path hblack =>
      obtain ⟨fuel, rfl⟩ := Nat.exists_eq_add_of_le' (Nat.le_of_add_left_le hfuel)
      refine ⟨m, _, rbInsertColorLoop_black _ h hne hblack, h, plug_ne_nil hne _, ?_⟩
      rw [insertColor, if_pos hblack]
  | case4 t p g path hp huncle ih =>
      obtain ⟨fuel, rfl⟩ := Nat.exists_eq_add_of_le' (Nat.le_of_add_left_le hfuel)
      obtain ⟨hbal, hisRed, hrest⟩ := hpath.recolor ht hp huncle
      obtain ⟨m₁, hm₁, h₁⟩ := rbRecolor_spec h huncle
      have hrounds : path.length + 2 ≤ fuel + 1 := by
        simp only [List.length_cons] at hfuel
        omega
      obtain ⟨m', u, hm', hu, hune, hpaint⟩ :=
        ih hbal hisRed hrest h₁ hrounds (attach_ne_nil _ _)
      rw [ptr_attach] at hm'
      refine ⟨m', u, ?_, hu, hune, ?_⟩
      · rw [rbInsertColorLoop_round (fuel + 1) h hne (red_of_not_black hp), if_pos huncle, hm₁]
        exact hm'
      · rw [insertColor, if_neg hp, if_pos huncle]
        exact hpaint
  | case5 t p g path hp huncle =>
      obtain ⟨fuel, rfl⟩ := Nat.exists_eq_add_of_le' (Nat.le_of_add_left_le hfuel)
      have hround := rbInsertColorLoop_round (fuel + 1) h hne (red_of_not_black hp)
      rw [if_neg huncle] at hround
      obtain ⟨s, c, y, inner⟩ := p
      obtain ⟨s', d, x, uncle⟩ := g
      by_cases hs : s = s'
      · subst hs
        obtain ⟨m', hm', hloop, h'⟩ := rbTurn_spec fuel h hne
        refine ⟨m', _, ?_, h', plug_cons_ne_nil _ _ _, ?_⟩
        · rw [hround, if_pos rfl, hm']
          exact hloop
        · rw [insertColor, if_neg hp, if_neg huncle, if_pos rfl]
          cases s <;> rfl
      · -- the node is on the inner side: it is rotated above its parent first
        obtain rfl : s = s'.other := by cases s <;> cases s' <;> simp_all [RedBlack.Side.other]
        cases t with
        | nil => exact absurd rfl hne
        | node a l k r =>
            have hnode : m.Represents A (plug ((RedBlack.Tree.node a l k r).child s')
                (⟨s'.other.other, a, k, (RedBlack.Tree.node a l k r).child s'.other⟩ ::
                  ⟨s'.other, c, y, inner⟩ :: ⟨s', d, x, uncle⟩ :: path)) F := by
              cases s' <;> exact h
            obtain ⟨m₁, hm₁, h₁⟩ := rbRotate_spec hnode
            rw [side_other_other] at h₁
            obtain ⟨m', hm', hloop, h'⟩ := rbTurn_spec
              (t := (Hop.mk s'.other c y inner).attach ((RedBlack.Tree.node a l k r).child s'))
              fuel h₁ (attach_ne_nil _ _)
            rw [ptr_attach] at hloop
            refine ⟨m', _, ?_, h', plug_cons_ne_nil _ _ _, ?_⟩
            · rw [hround, if_neg hs, hm₁, Option.bind_some, ptr_node, hm']
              exact hloop
            · rw [insertColor, if_neg hp, if_neg huncle, if_neg hs]
              cases s' <;> rfl

/-- **Insertion.**  `rb_insert_color` makes the tree of the repair loop. -/
theorem rbInsertColor_spec {t : RbTree α} {path : List (Hop α)} {n : Nat}
    (ht : Balanced t n) (hred : t.isRed = true) (hpath : Context path n)
    (h : m.Represents A (plug t path) F) {fuel : Nat} (hfuel : path.length + 2 ≤ fuel) :
    ∃ m', rbInsertColor fuel (A.ptr t) m = some m' ∧
      m'.Represents A (insertColor t path) F := by
  obtain ⟨m₁, u, hm₁, hu, hne, hpaint⟩ := rbInsertColorLoop_spec ht hred hpath h hfuel
  cases u with
  | nil => exact absurd rfl hne
  | node c l x r =>
      have hpos : m₁.Represents A (plug (.node c l x r) []) F := hu
      obtain ⟨m', hm', h'⟩ := paint_spec (f := RbNode.rbSetBlack) (d := .black) hpos
        (fun _ _ _ _ => rbCell_setBlack ..)
      rw [← hpaint]
      refine ⟨m', ?_, h'⟩
      rw [rbInsertColor, hm₁, Option.bind_eq_bind, Option.bind_some, hu.root]
      exact hm'

end Spe
