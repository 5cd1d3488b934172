import Spe.RbWalk

/-!
# Erasure from the tree in memory

`__rb_erase_color` on memory does what the repair loop does on the tree, and `rb_erase` what
erasing a key does (`rbErase_spec`).  The source asks on which side of its parent a node is
by comparing pointers, also when the node is missing and both pointers may be null; it
follows the pointer to the sibling without a test.  Both are right because the sibling of a
position that is one black node short is never missing.
-/

namespace Spe

open RedBlack
open Cells (Holds)

variable {α : Type} {A : Addressing α} {m : RbMem} {F : Multiset (Word × RbNode)}

/-- The root is not a position that has an ancestor. -/
theorem top_ne {a hole base : Word} {v : RbNode} {p : Hop α} {path : List (Hop α)}
    (h : Holds m.node ({(a, v)} + (pathCells A base hole (p :: path) + F))) :
    A.top hole (p :: path) ≠ a := by
  induction path generalizing p hole F with
  | nil =>
      have hcell : Holds m.node ({(a, v)} + ({(A.addr p.key,
          rbCell p.side (A.above base []) p.color hole (A.ptr p.sibling))} +
          (treeCells A (A.addr p.key) p.sibling + F))) :=
        h.congr (by simp only [pathCells_cons, pathCells_nil]; abel)
      exact hcell.ne.symm
  | cons q path ih =>
      have hrest : Holds m.node ({(a, v)} + (pathCells A base (A.addr p.key) (q :: path) +
          ({(A.addr p.key, rbCell p.side (A.above base (q :: path)) p.color hole
            (A.ptr p.sibling))} + (treeCells A (A.addr p.key) p.sibling + F)))) :=
        h.congr (by rw [pathCells_cons]; abel)
      exact ih hrest

theorem RbMem.Represents.ne_root {t : RbTree α} {p : Hop α} {path : List (Hop α)}
    (h : m.Represents A (plug t (p :: path)) F) : A.ptr t ≠ m.root := by
  cases t with
  | nil =>
      rw [h.root, ptr_nil]
      intro heq
      exact plug_cons_ne_nil _ _ _ ((ptr_eq_zero A).mp heq.symm)
  | node c l x r =>
      obtain ⟨hcells, hroot⟩ := h.focus
      rw [hroot, ptr_node]
      have hcell : Holds m.node ({(A.addr x, rbCell .left (A.addr p.key) c (A.ptr l) (A.ptr r))} +
          (pathCells A 0 (A.addr x) (p :: path) + (treeCells A (A.addr x) l +
            treeCells A (A.addr x) r + F))) :=
        hcells.congr (by rw [treeCells_node, ptr_node, above_cons]; abel)
      exact (top_ne hcell).symm

/-- A red sibling is rotated above the parent. -/
theorem rbLiftSibling_red {s : RbSide} {c : Color} {x y : α} {t inner outer : RbTree α}
    {path : List (Hop α)}
    (h : m.Represents A
      (plug t (⟨s, c, x, (Hop.mk s .red y outer).attach inner⟩ :: path)) F) :
    ∃ m', rbLiftSibling s (A.addr x) m = some (m', A.ptr inner) ∧
      m'.Represents A (plug t (⟨s, .red, x, inner⟩ :: ⟨s, .black, y, outer⟩ :: path)) F := by
  have hparent := h.parent
  rw [ptr_attach] at hparent
  have hinner : m.Represents A
      (plug inner (⟨s, .red, y, outer⟩ :: ⟨s.other, c, x, t⟩ :: path)) F := by
    rw [plug_sibling] at h
    exact h
  have hred := rbCell_isRed s .red (A.ptr inner) (A.ptr outer) (A.aligned x)
  obtain ⟨m₁, hm₁, h₁⟩ := paint_parent_spec (f := RbNode.rbSetBlack) (d := .black) hinner
    (fun _ _ _ _ => rbCell_setBlack ..)
  obtain ⟨m₂, hm₂, h₂⟩ := paint_parent_spec (t := (Hop.mk s .black y outer).attach inner)
    (f := RbNode.rbSetRed) (d := .red) h₁ (fun _ _ _ hp => rbCell_setRed _ _ _ _ hp)
  have hturn : m₂.Represents A
      (plug inner (⟨s.other.other, .black, y, outer⟩ :: ⟨s.other, .red, x, t⟩ :: path)) F := by
    rw [side_other_other]
    exact h₂
  obtain ⟨m₃, hm₃, h₃⟩ := rbRotate_spec hturn
  rw [side_other_other, ← plug_sibling] at h₃
  refine ⟨m₃, ?_, h₃⟩
  simp only [rbLiftSibling, hparent, Option.bind_eq_bind, Option.bind_some, rbCell_child_other,
    hinner.parent, above_cons, hred, decide_true, if_true, hm₁, hm₂, hm₃, h₃.parent]

/-- A black sibling stays where it is. -/
theorem rbLiftSibling_black {p : Hop α} {t : RbTree α} {path : List (Hop α)}
    (h : m.Represents A (plug t (p :: path)) F) (hne : p.sibling ≠ .nil)
    (hblack : p.sibling.isRed = false) :
    rbLiftSibling p.side (A.addr p.key) m = some (m, A.ptr p.sibling) := by
  have hparent := h.parent
  rw [plug_sibling] at h
  obtain ⟨s, c, x, sibling⟩ := p
  cases sibling with
  | nil => exact absurd rfl hne
  | node e l y r =>
      have hcolor := rbCell_isRed .left e (A.ptr l) (A.ptr r) (A.aligned x)
      cases e with
      | red => simp at hblack
      | black =>
          simp only [rbLiftSibling, hparent, Option.bind_eq_bind, Option.bind_some,
            rbCell_child_other, ptr_node, h.node, above_cons, hcolor, reduceCtorEq, decide_false,
            Bool.false_eq_true, if_false]

/-- The end of the last round: the sibling takes the colour of the parent and its place. -/
theorem rbLowerParent_spec {s q : RbSide} {c e f : Color} {x y z : α} {t near v w : RbTree α}
    {path : List (Hop α)}
    (h : m.Represents A (plug t (⟨s, c, x,
      (Hop.mk s.other e y near).attach ((Hop.mk q f z w).attach v)⟩ :: path)) F) :
    ∃ m', rbLowerParent s (A.addr x) (A.addr y) m = some m' ∧
      m'.Represents A (plug t (⟨s, .black, x, near⟩ ::
        ⟨s, c, y, (Hop.mk q .black z w).attach v⟩ :: path)) F := by
  have hcolor := rbCell_color s c (A.ptr t) (A.addr y) (aligned_above A aligned_zero path)
  have hparent := h.parent
  rw [ptr_attach] at hparent
  have hfar : m.Represents A (plug ((Hop.mk q f z w).attach v)
      (⟨s.other, e, y, near⟩ :: ⟨s.other, c, x, t⟩ :: path)) F := by
    rw [plug_sibling] at h
    exact h
  obtain ⟨m₁, hm₁, h₁⟩ := paint_parent_spec (f := (·.rbSetColor (colorBit c))) (d := c) hfar
    (fun _ _ _ hp => rbCell_setColor _ _ _ _ hp _)
  obtain ⟨m₂, hm₂, h₂⟩ := paint_parent_spec
    (t := (Hop.mk s.other c y near).attach ((Hop.mk q f z w).attach v))
    (f := RbNode.rbSetBlack) (d := .black) h₁ (fun _ _ _ _ => rbCell_setBlack ..)
  have hsibling : m₂.Represents A (plug ((Hop.mk q f z w).attach v)
      (⟨s.other, c, y, near⟩ :: ⟨s.other, .black, x, t⟩ :: path)) F := h₂
  have hother := hsibling.parent
  rw [ptr_attach] at hother
  have hnephew : m₂.Represents A (plug v
      (⟨q, f, z, w⟩ :: ⟨s.other, c, y, near⟩ :: ⟨s.other, .black, x, t⟩ :: path)) F := h₂
  obtain ⟨m₃, hm₃, h₃⟩ := paint_parent_spec (f := RbNode.rbSetBlack) (d := .black) hnephew
    (fun _ _ _ _ => rbCell_setBlack ..)
  have hturn : m₃.Represents A (plug near (⟨s.other.other, c, y, (Hop.mk q .black z w).attach v⟩ ::
      ⟨s.other, .black, x, t⟩ :: path)) F := by
    rw [← plug_sibling]
    exact h₃
  obtain ⟨m', hm', h'⟩ := rbRotate_spec hturn
  refine ⟨m', ?_, ?_⟩
  · simp only [rbLowerParent, hparent, Option.bind_eq_bind, Option.bind_some, hcolor, hm₁, hm₂,
      hother, rbCell_child, hm₃, hm']
  · rw [side_other_other] at h'
    rw [plug_sibling]
    exact h'

/-- The beginning of the last round, with a red nephew on the far side. -/
theorem rbLiftNephew_far {s : RbSide} {c : Color} {x y : α} {t near far : RbTree α}
    {path : List (Hop α)}
    (h : m.Represents A
      (plug far (⟨s.other, .black, y, near⟩ :: ⟨s.other, c, x, t⟩ :: path)) F)
    (hred : far.isRed = true) :
    rbLiftNephew s (A.addr x) (A.addr y) m = some (m, A.addr y) := by
  have hother := h.parent
  have hblackAt := h.isBlackAt
  rw [hred] at hblackAt
  simp only [rbLiftNephew, hother, Option.bind_eq_bind, Option.bind_some, rbCell_child, hblackAt,
    Bool.not_true, Bool.false_eq_true, if_false]

/-- The beginning of the last round, with a red nephew on the near side only. -/
theorem rbLiftNephew_near {s : RbSide} {c : Color} {x y z : α} {t far inner outer : RbTree α}
    {path : List (Hop α)}
    (h : m.Represents A (plug far (⟨s.other, .black, y,
      (Hop.mk s.other .red z outer).attach inner⟩ :: ⟨s.other, c, x, t⟩ :: path)) F)
    (hblack : far.isRed = false) :
    ∃ m', rbLiftNephew s (A.addr x) (A.addr y) m = some (m', A.addr z) ∧
      m'.Represents A (plug t (⟨s, c, x, (Hop.mk s.other .black z outer).attach
        ((Hop.mk s .red y far).attach inner)⟩ :: path)) F := by
  have hother : m.node (A.addr y) =
      some (rbCell s (A.addr x) .black (A.addr z) (A.ptr far)) := by
    rw [← rbCell_other, ← ptr_attach A (Hop.mk s.other .red z outer) inner]
    exact h.parent
  have hblackAt := h.isBlackAt
  rw [hblack] at hblackAt
  have hnear : m.Represents A (plug inner (⟨s.other, .red, z, outer⟩ ::
      ⟨s, .black, y, far⟩ :: ⟨s.other, c, x, t⟩ :: path)) F := by
    rw [plug_sibling, side_other_other] at h
    exact h
  obtain ⟨m₁, hm₁, h₁⟩ := paint_parent_spec (f := RbNode.rbSetBlack) (d := .black) hnear
    (fun _ _ _ _ => rbCell_setBlack ..)
  obtain ⟨m₂, hm₂, h₂⟩ := paint_parent_spec
    (t := (Hop.mk s.other .black z outer).attach inner)
    (f := RbNode.rbSetRed) (d := .red) h₁ (fun _ _ _ hp => rbCell_setRed _ _ _ _ hp)
  have hbelow : m₂.Represents A (plug inner (⟨s.other, .black, z, outer⟩ ::
      ⟨s, .red, y, far⟩ :: ⟨s.other, c, x, t⟩ :: path)) F := h₂
  obtain ⟨m₃, hm₃, h₃⟩ := rbRotate_spec hbelow
  have hplace : m₃.Represents A (plug t (⟨s, c, x, (Hop.mk s.other .black z outer).attach
      ((Hop.mk s .red y far).attach inner)⟩ :: path)) F := by
    rw [plug_sibling]
    exact h₃
  have hparent := hplace.parent
  rw [ptr_attach] at hparent
  refine ⟨m₃, ?_, hplace⟩
  simp only [rbLiftNephew, hother, Option.bind_eq_bind, Option.bind_some, rbCell_child,
    rbCell_child_other, hblackAt, Bool.not_false, if_true, hm₁, hm₂, hm₃, hparent]

/-- The repair loop with a red nephew on the far side. -/
theorem settleSibling_far (s : RbSide) (c : Color) (x y z : α) (t near l r : RbTree α) :
    settleSibling t ⟨s, c, x, (Hop.mk s.other .black y near).attach (.node .red l z r)⟩ =
      .inr (plug t [⟨s, .black, x, near⟩, ⟨s, c, y, .node .black l z r⟩]) := by
  cases s <;> simp [settleSibling, RedBlack.Side.other, Hop.attach,
    RedBlack.Tree.child, RedBlack.Tree.paint, RedBlack.Tree.paintChild, RedBlack.Tree.rotateUp, plug]

/-- The repair loop with a red nephew on the near side only. -/
theorem settleSibling_near (s : RbSide) (c : Color) (x y z : α) (t far inner outer : RbTree α)
    (hfar : far.isRed = false) :
    settleSibling t ⟨s, c, x, (Hop.mk s.other .black y
        ((Hop.mk s.other .red z outer).attach inner)).attach far⟩ =
      .inr (plug t [⟨s, .black, x, outer⟩, ⟨s, c, z, (Hop.mk s .black y far).attach inner⟩]) := by
  cases s <;> simp [settleSibling, RedBlack.Side.other, Hop.attach,
    RedBlack.Tree.child, RedBlack.Tree.paint, RedBlack.Tree.paintChild, RedBlack.Tree.rotateUp, plug, hfar]

/-- The last round makes the tree of the repair loop. -/
theorem rbSettle_spec {s : RbSide} {c : Color} {x y : α} {t near far : RbTree α}
    {path : List (Hop α)}
    (h : m.Represents A
      (plug t (⟨s, c, x, (Hop.mk s.other .black y near).attach far⟩ :: path)) F)
    (hnephew : far.isRed = true ∨ near.isRed = true) :
    ∃ m₁ other m' u, rbLiftNephew s (A.addr x) (A.addr y) m = some (m₁, other) ∧
      rbLowerParent s (A.addr x) other m₁ = some m' ∧
      settleSibling t ⟨s, c, x, (Hop.mk s.other .black y near).attach far⟩ = .inr u ∧
      m'.Represents A (plug u path) F := by
  have hfar : m.Represents A
      (plug far (⟨s.other, .black, y, near⟩ :: ⟨s.other, c, x, t⟩ :: path)) F := by
    rw [plug_sibling] at h
    exact h
  cases hred : far.isRed with
  | true =>
      have hlift := rbLiftNephew_far hfar hred
      cases far with
      | nil => simp at hred
      | node f l z r =>
          cases f with
          | black => simp at hred
          | red =>
              obtain ⟨m', hm', h'⟩ := rbLowerParent_spec (q := .left) (v := l) (z := z) (w := r) h
              exact ⟨m, _, m', _, hlift, hm', settleSibling_far s c x y z t near l r, h'⟩
  | false =>
      have hnear : near.isRed = true := hnephew.resolve_left (by simp [hred])
      cases near with
      | nil => simp at hnear
      | node f l z r =>
          cases f with
          | black => simp at hnear
          | red =>
              rw [← attach_child s.other .red l r z] at hfar ⊢
              obtain ⟨m₁, hm₁, h₁⟩ := rbLiftNephew_near hfar hred
              obtain ⟨m', hm', h'⟩ := rbLowerParent_spec h₁
              exact ⟨m₁, _, m', _, hm₁, hm', settleSibling_near s c x y z t far _ _ hred, h'⟩

/-- **A round.**  With a black sibling, a round does what it does on the tree. -/
theorem rbEraseRound_spec {p : Hop α} {t l r : RbTree α} {y : α} {path : List (Hop α)}
    (h : m.Represents A (plug t (p :: path)) F) (hsib : p.sibling = .node .black l y r) :
    ∃ m', rbEraseRound p.side (A.addr p.key) (A.addr y) m =
        some (m', (settleSibling t p).isLeft) ∧
      m'.Represents A (plug (Sum.elim id id (settleSibling t p)) path) F := by
  obtain ⟨s, c, x, sibling⟩ := p
  simp only at hsib
  subst hsib
  have hpos : m.Represents A (plug (.node .black l y r) (⟨s.other, c, x, t⟩ :: path)) F := by
    rw [← plug_sibling]
    exact h
  have hleftPos : m.Represents A (plug l (⟨.left, .black, y, r⟩ :: ⟨s.other, c, x, t⟩ :: path)) F :=
    hpos
  have hleft := hleftPos.isBlackAt
  have hrightPos : m.Represents A
      (plug r (⟨.right, .black, y, l⟩ :: ⟨s.other, c, x, t⟩ :: path)) F := hpos
  have hright := hrightPos.isBlackAt
  by_cases hboth : ¬ l.isRed ∧ ¬ r.isRed
  · obtain ⟨m₁, hm₁, h₁⟩ := paint_spec (f := RbNode.rbSetRed) (d := .red) hpos
      (fun _ _ _ hp => rbCell_setRed _ _ _ _ hp)
    rw [← plug_sibling] at h₁
    have hsettle : settleSibling t ⟨s, c, x, .node .black l y r⟩ =
        .inl ((Hop.mk s c x (.node .red l y r)).attach t) := if_pos hboth
    rw [hsettle]
    refine ⟨m₁, ?_, h₁⟩
    simp only [rbEraseRound, hpos.node, Option.bind_eq_bind, Option.bind_some, above_cons,
      rbCell_rbLeft, rbCell_rbRight, hleft, hright, hboth, Bool.not_false, if_true, hm₁]
    rfl
  · have hsibling := attach_child s.other .black l r y
    rw [side_other_other] at hsibling
    have hnephew : ((RedBlack.Tree.node .black l y r).child s.other).isRed = true ∨
        ((RedBlack.Tree.node .black l y r).child s).isRed = true := by
      cases s <;> simp only [RedBlack.Tree.child, RedBlack.Side.other] <;> grind
    rw [← hsibling] at h ⊢
    obtain ⟨m₁, other, m', u, hm₁, hm', hsettle, h'⟩ := rbSettle_spec h hnephew
    rw [hsettle]
    refine ⟨m', ?_, h'⟩
    simp only [rbEraseRound, hpos.node, Option.bind_eq_bind, Option.bind_some, above_cons,
      rbCell_rbLeft, rbCell_rbRight, hleft, hright, hm₁, hm']
    cases hl : l.isRed <;> cases hr : r.isRed <;> simp_all

/-- The loop is left at the root and at a red node. -/
theorem rbEraseColor_done {t : RbTree α} {path : List (Hop α)} (fuel : Nat) (parent : Word)
    (h : m.Represents A (plug t path) F) (hdone : t.isRed = true ∨ path = []) :
    ∃ m', rbEraseColor (fuel + 1) (A.ptr t) parent m = some m' ∧
      m'.Represents A (plug (t.paint .black) path) F := by
  have hblackAt := h.isBlackAt
  have hexit : ¬ ((!t.isRed) = true ∧ A.ptr t ≠ m.root) := by
    rcases hdone with hred | rfl
    · simp [hred]
    · rintro ⟨_, hne⟩
      exact hne h.root.symm
  cases t with
  | nil =>
      refine ⟨m, ?_, h⟩
      simp only [rbEraseColor, rbEraseColorLoop, hblackAt, Option.bind_eq_bind, Option.bind_some,
        hexit, not_false_eq_true, if_true]
      rfl
  | node c l x r =>
      obtain ⟨m', hm', h'⟩ := paint_spec (f := RbNode.rbSetBlack) (d := .black) h
        (fun _ _ _ _ => rbCell_setBlack ..)
      refine ⟨m', ?_, h'⟩
      simp only [rbEraseColor, rbEraseColorLoop, hblackAt, Option.bind_eq_bind, Option.bind_some,
        hexit, not_false_eq_true, if_true]
      rw [modifyIf_ptr A (by simp)]
      exact hm'

/-- What remains to be done after a round. -/
theorem rbEraseColor_round {m₁ m₂ : RbMem} {p : Hop α} {t : RbTree α} {path : List (Hop α)}
    {other : Word} {goesOn : Bool} (fuel : Nat) (h : m.Represents A (plug t (p :: path)) F)
    (hblack : t.isRed = false) (hsib : p.sibling ≠ .nil)
    (hlift : rbLiftSibling p.side (A.addr p.key) m = some (m₁, other))
    (hround : rbEraseRound p.side (A.addr p.key) other m₁ = some (m₂, goesOn)) :
    rbEraseColor (fuel + 1) (A.ptr t) (A.addr p.key) m =
      if goesOn then
        (m₂.node (A.addr p.key)).bind fun n => rbEraseColor fuel (A.addr p.key) n.rbParent m₂
      else m₂.modifyIf m₂.root RbNode.rbSetBlack := by
  have hblackAt := h.isBlackAt
  have hgo : (¬ ((!t.isRed) = true ∧ A.ptr t ≠ m.root)) = False := by
    simp [hblack, h.ne_root]
  simp only [rbEraseColor, rbEraseColorLoop, hblackAt, Option.bind_eq_bind, Option.bind_some,
    hgo, if_false, h.parent, h.side_eq (Or.inr hsib), hlift, hround]
  cases goesOn with
  | true =>
      simp only [if_true]
      cases m₂.node (A.addr p.key) <;> rfl
  | false => rfl

/-- After the last round the root is painted. -/
theorem paint_root {t : RbTree α} {path : List (Hop α)} (h : m.Represents A (plug t path) F) :
    ∃ m', m.modifyIf m.root RbNode.rbSetBlack = some m' ∧
      m'.Represents A ((plug t path).paint .black) F := by
  rw [h.root]
  cases hu : plug t path with
  | nil =>
      rw [hu] at h
      exact ⟨m, rfl, h⟩
  | node c l x r =>
      rw [hu] at h
      have hpos : m.Represents A (plug (.node c l x r) []) F := h
      obtain ⟨m', hm', h'⟩ := paint_spec (f := RbNode.rbSetBlack) (d := .black) hpos
        (fun _ _ _ _ => rbCell_setBlack ..)
      refine ⟨m', ?_, h'⟩
      rw [modifyIf_ptr A (by simp)]
      exact hm'

/-- When the loop goes on, it does so at the parent. -/
theorem settle_inl (A : Addressing α) {p : Hop α} {t u : RbTree α}
    (h : settleSibling t p = .inl u) : u ≠ .nil ∧ A.ptr u = A.addr p.key := by
  unfold settleSibling at h
  dsimp only at h
  split at h
  · obtain rfl := Sum.inl.inj h
    exact ⟨attach_ne_nil _ _, ptr_attach A _ _⟩
  · cases h

/-- **Repair after an erasure.**  `__rb_erase_color` makes the tree of the repair loop. -/
theorem rbEraseColor_spec {t : RbTree α} {path : List (Hop α)} {n : Nat} (ht : Short t n)
    (hpath : Context path (n + 1)) (h : m.Represents A (plug t path) F) {fuel : Nat}
    (hfuel : path.length + 2 ≤ fuel) :
    ∃ m', rbEraseColor fuel (A.ptr t) (A.above 0 path) m = some m' ∧
      m'.Represents A (eraseColor t path) F := by
  induction path generalizing t n m fuel with
  | nil =>
      obtain ⟨fuel, rfl⟩ := Nat.exists_eq_add_of_le' (Nat.le_of_add_left_le hfuel)
      exact rbEraseColor_done (fuel + 1) _ h (Or.inr rfl)
  | cons p path ih =>
      obtain ⟨fuel, rfl⟩ := Nat.exists_eq_add_of_le' (Nat.le_of_add_left_le hfuel)
      rw [eraseColor]
      cases htb : t.isRed with
      | true =>
          rw [if_pos rfl]
          exact rbEraseColor_done (fuel + 1) _ h (Or.inl htb)
      | false =>
          rw [if_neg Bool.false_ne_true]
          obtain ⟨hs, hrest, hred⟩ := hpath.parent
          rw [Short, htb, if_neg Bool.false_ne_true] at ht
          cases hsb : p.sibling.isRed with
          | true =>
              -- the new sibling is a black nephew, and the round after that is the last
              obtain ⟨l, y, r, hsib, hl, hr, hlb, hrb⟩ := hs.cases_red hsb
              obtain ⟨s, c, x, sibling⟩ := p
              simp only at hsib
              subst hsib
              have hinner : (RedBlack.Tree.node .red l y r).child s =
                  if s = .left then l else r := by
                cases s <;> rfl
              have houter : (RedBlack.Tree.node .red l y r).child s.other =
                  if s = .left then r else l := by
                cases s <;> rfl
              have hlifted := h
              rw [← attach_child s .red l r y, hinner, houter] at hlifted
              obtain ⟨m₁, hlift, h₁⟩ := rbLiftSibling_red hlifted
              obtain ⟨a, z, b, hnephew, _⟩ := Balanced.cases_black
                (t := if s = .left then l else r) (by split <;> assumption)
                (by split <;> assumption)
              obtain ⟨m₂, hm₂, h₂⟩ := rbEraseRound_spec h₁ hnephew
              have hround := settleSibling_spec (p := ⟨s, .red, x, if s = .left then l else r⟩)
                ht (by dsimp only; split <;> assumption) (by dsimp only; split <;> assumption)
              rw [above_cons, rbEraseColor_round (fuel + 1) h htb (by simp) hlift
                (by rw [hnephew]; exact hm₂)]
              dsimp only
              cases hu : settleSibling t ⟨s, .red, x, if s = .left then l else r⟩ with
              | inl u =>
                  rw [hu] at hround h₂
                  simp only [Sum.elim_inl, id_eq] at h₂
                  obtain ⟨hune, hptr⟩ := settle_inl A hu
                  obtain ⟨v, hv, hparent⟩ := h₂.rbParent hune
                  rw [hptr] at hv
                  obtain ⟨m', hm', h'⟩ := rbEraseColor_done fuel v.rbParent h₂
                    (Or.inl (hround.2.mpr rfl))
                  rw [hptr] at hm'
                  refine ⟨m', ?_, h'⟩
                  rw [Sum.isLeft_inl, if_pos rfl, hv, Option.bind_some]
                  exact hm'
              | inr u =>
                  rw [hu] at h₂
                  exact paint_root h₂
          | false =>
              obtain ⟨l, y, r, hsib, _⟩ := hs.cases_black hsb
              have hne : p.sibling ≠ .nil := by simp [hsib]
              have hlift := rbLiftSibling_black h hne hsb
              obtain ⟨m₁, hm₁, h₁⟩ := rbEraseRound_spec h hsib
              have hround := settleSibling_spec ht hs hsb
              rw [above_cons, rbEraseColor_round (fuel + 1) h htb hne hlift
                (by rw [hsib]; exact hm₁)]
              rw [hsib]
              dsimp only
              cases hu : settleSibling t p with
              | inl u =>
                  rw [hu] at hround h₁
                  simp only [Sum.elim_inl, id_eq] at h₁
                  obtain ⟨hune, hptr⟩ := settle_inl A hu
                  obtain ⟨k, hk, hshort⟩ := short_of_round hround.1 hround.2
                  rw [hk] at hrest
                  obtain ⟨v, hv, hparent⟩ := h₁.rbParent hune
                  rw [hptr] at hv
                  have hrounds : path.length + 2 ≤ fuel + 1 := by
                    simp only [List.length_cons] at hfuel
                    omega
                  obtain ⟨m', hm', h'⟩ := ih hshort hrest h₁ hrounds
                  rw [hptr] at hm'
                  refine ⟨m', ?_, h'⟩
                  rw [Sum.isLeft_inl, if_pos rfl, hv, Option.bind_some, hparent]
                  exact hm'
              | inr u =>
                  rw [hu] at h₁
                  exact paint_root h₁

/-- The colours are repaired when a black node was unlinked. -/
theorem repair_spec {c : Color} {child : RbTree α} {path : List (Hop α)} {n : Nat}
    (hchild : Balanced child n) (hpath : Context path (heightAt c n))
    (h : m.Represents A (plug child path) F) {fuel : Nat} (hfuel : path.length + 2 ≤ fuel) :
    ∃ m', (if colorBit c = rbBlack then rbEraseColor fuel (A.ptr child) (A.above 0 path) m
        else some m) = some m' ∧
      m'.Represents A (if c = .black then eraseColor child path else plug child path) F := by
  cases c with
  | red =>
      refine ⟨m, if_neg (by decide), ?_⟩
      exact h
  | black => exact rbEraseColor_spec hchild.short hpath h hfuel

/-- A node with one child, or none, is unlinked. -/
theorem rbUnlink_spec {c : Color} {l r : RbTree α} {x : α} {path : List (Hop α)} {n : Nat}
    (child : RbTree α) (h : m.Represents A (plug (.node c l x r) path) F)
    (hone : ∀ b, treeCells A b l + treeCells A b r = treeCells A b child)
    (hchild : Balanced child n) (hpath : Context path (heightAt c n)) {fuel : Nat}
    (hfuel : path.length + 2 ≤ fuel) :
    ∃ m' v, rbUnlink fuel (A.addr x) (A.ptr child) m = some m' ∧
      m'.Represents A (if c = .black then eraseColor child path else plug child path)
        ({(A.addr x, v)} + F) := by
  have habove := aligned_above A aligned_zero path
  obtain ⟨hcells, hroot⟩ := h.focus
  rw [treeCells_node, hone, ptr_node] at hcells
  obtain ⟨v, hv⟩ : ∃ v, v = rbCell .left (A.above 0 path) c (A.ptr l) (A.ptr r) := ⟨_, rfl⟩
  have hbelow : Holds m.node (treeCells A (A.addr x) child +
      ({(A.addr x, v)} + (pathCells A 0 (A.addr x) path + F))) :=
    hcells.congr (by rw [hv]; abel)
  obtain ⟨m₁, hm₁, h₁, hr₁⟩ := setParent_spec hbelow (A.aligned x) (A.above 0 path)
  have hlink : Holds m₁.node ({(A.addr x, v)} + (pathCells A 0 (A.addr x) path +
      (treeCells A (A.above 0 path) child + F))) :=
    h₁.congr (by abel)
  obtain ⟨m₂, hm₂, h₂, hr₂⟩ := relink_spec .left (A.ptr child) hlink (A.ne_zero x)
    (hr₁.trans hroot)
  have hplace : m₂.Represents A (plug child path) ({(A.addr x, v)} + F) :=
    represents_of_focus (h₂.congr (by abel)) hr₂
  obtain ⟨m', hm', h'⟩ := repair_spec hchild hpath hplace hfuel
  refine ⟨m', v, ?_, h'⟩
  have hparent := rbCell_parent .left c (A.ptr l) (A.ptr r) habove
  have hcolor := rbCell_color .left c (A.ptr l) (A.ptr r) habove
  simp only [rbUnlink, h.node, Option.bind_eq_bind, Option.bind_some, hparent, hcolor, hm₁, hm₂,
    hm']

/-- The successor takes the place of the node. -/
theorem rbTakeOver_spec {P b near : Word} {c d : Color} {x y : α} {l r' : RbTree α} {rp : Word}
    (h : Holds m.node ({(A.addr x, rbCell .left P c (A.ptr l) rp)} +
      ({(A.addr y, rbCell .left b d near (A.ptr r'))} + (treeCells A (A.addr x) l + F))))
    (hl : l ≠ .nil) :
    ∃ m', rbTakeOver (A.addr x) (A.addr y) m = some m' ∧
      Holds m'.node ({(A.addr x, rbCell .left P c (A.ptr l) rp)} +
        ({(A.addr y, rbCell .left P c (A.ptr l) (A.ptr r'))} +
          (treeCells A (A.addr y) l + F))) ∧ m'.root = m.root := by
  have hx : m.node (A.addr x) = some (rbCell .left P c (A.ptr l) rp) := h.read
  obtain ⟨m₁, hm₁, h₁, hr₁⟩ := modify_spec (h.congr (add_left_comm _ _ _))
    (fun n => { n with rbParentColor := pack P c })
  obtain ⟨m₂, hm₂, h₂, hr₂⟩ := modify_spec (v := rbCell .left P c near (A.ptr r')) h₁
    (·.setChild .left (A.ptr l))
  rw [rbCell_setChild] at h₂
  have hbelow : Holds m₂.node (treeCells A (A.addr x) l +
      ({(A.addr x, rbCell .left P c (A.ptr l) rp)} +
        ({(A.addr y, rbCell .left P c (A.ptr l) (A.ptr r'))} + F))) :=
    h₂.congr (by abel)
  obtain ⟨m₃, hm₃, h₃, hr₃⟩ := setParent_spec hbelow (A.aligned x) (A.addr y)
  rw [modifyIf_ptr A hl] at hm₃
  refine ⟨m₃, ?_, h₃.congr (by abel), by rw [hr₃, hr₂, hr₁]⟩
  simp only [rbTakeOver, hx, Option.bind_eq_bind, Option.bind_some, rbCell_parentColor,
    rbCell_rbLeft, hm₁, hm₂, hm₃]

/-- The successor is taken out of its place. -/
theorem rbTakeOut_spec {X : RbNode} {cy : Color} {x y : α} {child : RbTree α}
    {below : List (Hop α)}
    (h : Holds m.node ({(A.addr x, X)} +
      ({(A.addr y, rbCell .left (A.above (A.addr x) below) cy 0 (A.ptr child))} +
        (treeCells A (A.addr y) child + pathCells A (A.addr x) (A.addr y) below + F))))
    (hright : X.rbRight = A.top (A.addr y) below) (hside : ∀ q ∈ below, q.side = .left) :
    ∃ m' b d near, rbTakeOut (A.addr x) (A.addr y) (A.ptr child) (A.above (A.addr x) below) m =
        some (m', A.above (A.addr y) below) ∧
      Holds m'.node ({(A.addr x, X)} +
        ({(A.addr y, rbCell .left b d near (A.ptr (plug child below)))} +
          (treeCells A (A.addr y) (plug child below) + F))) ∧ m'.root = m.root := by
  cases below with
  | nil =>
      refine ⟨m, A.addr x, cy, 0, if_pos rfl, ?_, rfl⟩
      simpa [pathCells_nil, plug, Addressing.above] using h
  | cons q below =>
      obtain ⟨qs, qc, qk, qsib⟩ := q
      obtain rfl : qs = .left := hside _ List.mem_cons_self
      obtain ⟨r', hr'⟩ : ∃ u, u = plug child (⟨.left, qc, qk, qsib⟩ :: below) := ⟨_, rfl⟩
      have hptr : X.rbRight = A.ptr r' := by
        rw [hright, hr', ptr_plug]
        rfl
      have hne : r' ≠ .nil := hr' ▸ plug_cons_ne_nil _ _ _
      rw [pathCells_cons, above_cons] at h
      dsimp only at h
      have hparent : A.addr qk ≠ A.addr x := by
        have hpair : Holds m.node ({(A.addr qk,
            rbCell .left (A.above (A.addr x) below) qc (A.addr y) (A.ptr qsib))} +
            ({(A.addr x, X)} + ({(A.addr y, rbCell .left (A.addr qk) cy 0 (A.ptr child))} +
              (treeCells A (A.addr y) child + treeCells A (A.addr qk) qsib +
                pathCells A (A.addr x) (A.addr qk) below + F)))) :=
          h.congr (by abel)
        exact hpair.ne
      have hchild : Holds m.node (treeCells A (A.addr y) child + ({(A.addr x, X)} +
          ({(A.addr y, rbCell .left (A.addr qk) cy 0 (A.ptr child))} + ({(A.addr qk,
            rbCell .left (A.above (A.addr x) below) qc (A.addr y) (A.ptr qsib))} +
          (treeCells A (A.addr qk) qsib + pathCells A (A.addr x) (A.addr qk) below + F))))) :=
        h.congr (by abel)
      obtain ⟨m₁, hm₁, h₁, hr₁⟩ := setParent_spec hchild (A.aligned y) (A.addr qk)
      have hlink : Holds m₁.node ({(A.addr qk,
          rbCell .left (A.above (A.addr x) below) qc (A.addr y) (A.ptr qsib))} +
          ({(A.addr x, X)} + ({(A.addr y, rbCell .left (A.addr qk) cy 0 (A.ptr child))} +
          (treeCells A (A.addr qk) child + treeCells A (A.addr qk) qsib +
            pathCells A (A.addr x) (A.addr qk) below + F)))) :=
        h₁.congr (by abel)
      obtain ⟨m₂, hm₂, h₂, hr₂⟩ := modify_spec hlink (·.setChild .left (A.ptr child))
      rw [rbCell_setChild] at h₂
      have hx : m₂.node (A.addr x) = some X := Holds.read (h₂.congr (add_left_comm _ _ _))
      have hrest : treeCells A (A.addr x) r' = treeCells A (A.addr qk) child + ({(A.addr qk,
          rbCell .left (A.above (A.addr x) below) qc (A.ptr child) (A.ptr qsib))} +
          (treeCells A (A.addr qk) qsib + pathCells A (A.addr x) (A.addr qk) below)) := by
        rw [hr', treeCells_plug, pathCells_cons, above_cons]
      have hnode : Holds m₂.node ({(A.addr y, rbCell .left (A.addr qk) cy 0 (A.ptr child))} +
          ({(A.addr x, X)} + (treeCells A (A.addr x) r' + F))) :=
        h₂.congr (by rw [hrest]; abel)
      obtain ⟨m₃, hm₃, h₃, hr₃⟩ := modify_spec hnode (·.setChild .right (A.ptr r'))
      have htree : Holds m₃.node (treeCells A (A.addr x) r' + ({(A.addr x, X)} +
          ({(A.addr y, rbCell .left (A.addr qk) cy 0 (A.ptr r'))} + F))) :=
        h₃.congr (by rw [show (rbCell .left (A.addr qk) cy 0 (A.ptr child)).setChild .right
          (A.ptr r') = rbCell .left (A.addr qk) cy 0 (A.ptr r') from rfl]; abel)
      obtain ⟨m₄, hm₄, h₄, hr₄⟩ := setParent_spec htree (A.aligned x) (A.addr y)
      rw [modifyIf_ptr A hne] at hm₄
      refine ⟨m₄, A.addr qk, cy, 0, ?_, ?_, by rw [hr₄, hr₃, hr₂, hr₁]⟩
      · simp only [rbTakeOut, above_cons, hparent, if_false, hm₁, Option.bind_eq_bind,
          Option.bind_some, hm₂, hx, hptr, hm₃, hm₄]
      · rw [← hr']
        exact h₄.congr (by abel)

/-- A node with two children is replaced by its successor. -/
theorem rbReplaceBySuccessor_spec {c cy : Color} {l r child : RbTree α} {x y : α}
    {below path : List (Hop α)} {n : Nat}
    (h : m.Represents A (plug (.node c l x r) path) F) (hl : l ≠ .nil)
    (hleft : leftmost r [] = some (cy, y, child, below)) (hchild : Balanced child n)
    (hpath : Context (below ++ ⟨.right, c, y, l⟩ :: path) (heightAt cy n)) {fuel : Nat}
    (hfuel : (below ++ ⟨.right, c, y, l⟩ :: path).length + 2 ≤ fuel) :
    ∃ m' v, rbReplaceBySuccessor fuel (A.addr x) (A.addr y) m = some m' ∧
      m'.Represents A
        (if cy = .black then eraseColor child (below ++ ⟨.right, c, y, l⟩ :: path)
          else plug child (below ++ ⟨.right, c, y, l⟩ :: path))
        ({(A.addr x, v)} + F) := by
  have habove := aligned_above A aligned_zero path
  have hbase : Aligned (A.above (A.addr x) below) := aligned_above A (A.aligned x) below
  have hr : plug (.node cy .nil y child) below = r := plug_leftmost hleft
  have hptr : A.ptr r = A.top (A.addr y) below := by rw [← hr, ptr_plug, ptr_node]
  obtain ⟨hcells, hroot⟩ := h.focus
  rw [treeCells_node, ptr_node] at hcells
  obtain ⟨X, hX⟩ : ∃ v, v = rbCell .left (A.above 0 path) c (A.ptr l) (A.ptr r) := ⟨_, rfl⟩
  have hlink : Holds m.node ({(A.addr x, X)} + (pathCells A 0 (A.addr x) path +
      (treeCells A (A.addr x) l + treeCells A (A.addr x) r + F))) :=
    hcells.congr (by rw [hX]; abel)
  obtain ⟨m₁, hm₁, h₁, hr₁⟩ := relink_spec .left (A.addr y) hlink (A.ne_zero x) hroot
  have hrcells : treeCells A (A.addr x) r =
      {(A.addr y, rbCell .left (A.above (A.addr x) below) cy 0 (A.ptr child))} +
        (treeCells A (A.addr y) child + pathCells A (A.addr x) (A.addr y) below) := by
    rw [← hr, treeCells_plug, treeCells_node, ptr_node, ptr_nil, treeCells_nil, zero_add, add_assoc]
  have hplace : Holds m₁.node ({(A.addr x, X)} +
      ({(A.addr y, rbCell .left (A.above (A.addr x) below) cy 0 (A.ptr child))} +
        (treeCells A (A.addr y) child + pathCells A (A.addr x) (A.addr y) below +
          (treeCells A (A.addr x) l + pathCells A 0 (A.addr y) path + F)))) :=
    h₁.congr (by rw [hrcells]; abel)
  have hy : m₁.node (A.addr y) =
      some (rbCell .left (A.above (A.addr x) below) cy 0 (A.ptr child)) :=
    Holds.read (hplace.congr (add_left_comm _ _ _))
  obtain ⟨m₂, b, d, near, hm₂, h₂, hr₂⟩ := rbTakeOut_spec hplace (by rw [hX]; exact hptr)
    (leftmost_side hleft (by simp))
  have hover : Holds m₂.node
      ({(A.addr x, rbCell .left (A.above 0 path) c (A.ptr l) (A.ptr r))} +
      ({(A.addr y, rbCell .left b d near (A.ptr (plug child below)))} +
      (treeCells A (A.addr x) l + (treeCells A (A.addr y) (plug child below) +
        pathCells A 0 (A.addr y) path + F)))) :=
    h₂.congr (by rw [hX]; abel)
  obtain ⟨m₃, hm₃, h₃, hr₃⟩ := rbTakeOver_spec hover hl
  have hnew : m₃.Represents A (plug child (below ++ ⟨.right, c, y, l⟩ :: path))
      ({(A.addr x, X)} + F) := by
    have hwhole : m₃.Represents A (plug (.node c l y (plug child below)) path)
        ({(A.addr x, X)} + F) := by
      apply represents_of_focus _ (by rw [hr₃, hr₂, hr₁, ptr_node])
      rw [treeCells_node, ptr_node]
      exact h₃.congr (by rw [hX]; abel)
    rw [plug_append]
    exact hwhole
  have hparent : A.above 0 (below ++ ⟨.right, c, y, l⟩ :: path) = A.above (A.addr y) below := by
    cases below <;> rfl
  obtain ⟨m', hm', h'⟩ := repair_spec hchild hpath hnew hfuel
  rw [hparent] at hm'
  refine ⟨m', X, ?_, h'⟩
  have hxparent := rbCell_parent .left c (A.ptr l) (A.ptr r) habove
  have hyparent := rbCell_parent .left cy 0 (A.ptr child) hbase
  have hycolor := rbCell_color .left cy 0 (A.ptr child) hbase
  simp only [rbReplaceBySuccessor, h.node, Option.bind_eq_bind, Option.bind_some, hxparent, hm₁,
    hy, rbCell_rbRight, hyparent, hycolor, hm₂, hm₃, hm']

variable [DecidableEq α]

/-- **Erasure.**  `rb_erase` makes the tree without the key; the cell of its node is left
over. -/
theorem rbErase_spec {t : RbTree α} {x : α} (h : m.Represents A t F) (ht : t.IsRedBlack)
    (hx : x ∈ t.toList) {fuel : Nat} (hfuel : t.height + 2 ≤ fuel) :
    ∃ m' v, rbErase fuel (A.addr x) m = some m' ∧
      m'.Represents A (erase x t) ({(A.addr x, v)} + F) := by
  obtain ⟨n, hfits⟩ := ht.fits
  obtain ⟨⟨c, l, r, path⟩, hfound⟩ :=
    Option.ne_none_iff_exists'.mp (fun hnone => locate_eq_none.mp hnone hx)
  have hplug : plug (.node c l x r) path = plug t [] := plug_locate hfound
  have hdepth := length_le_height_plug (.node c l x r) path
  rw [hplug, RedBlack.Tree.height, plug] at hdepth
  have hway : path.length + 2 ≤ fuel := by omega
  have hpos : m.Represents A (plug (.node c l x r) path) F := hplug ▸ h
  obtain ⟨_, hnode⟩ := hfits.locate hfound
  obtain ⟨k, hl, hr, hpath, _⟩ := hnode.parts
  rw [erase, hfound]
  obtain ⟨v, hv⟩ : ∃ v, m.node (A.addr x) = some v ∧ v.rbLeft = A.ptr l ∧ v.rbRight = A.ptr r :=
    ⟨_, hpos.node, rfl, rfl⟩
  simp only [rbErase, hv, Option.bind_eq_bind, Option.bind_some]
  cases l with
  | nil =>
      obtain ⟨m', v, hm', h'⟩ := rbUnlink_spec r hpos (by simp [treeCells_nil]) hr hpath hway
      exact ⟨m', v, by rw [if_pos (ptr_nil A), hm'], h'⟩
  | node lc ll lx lr =>
      have hlne : A.ptr (.node lc ll lx lr) ≠ 0 := A.ne_zero lx
      rw [if_neg hlne]
      cases r with
      | nil =>
          obtain ⟨m', v, hm', h'⟩ := rbUnlink_spec (.node lc ll lx lr) hpos
            (by simp [treeCells_nil]) hl hpath hway
          exact ⟨m', v, by rw [if_pos (ptr_nil A), hm'], h'⟩
      | node rc rl rx rr =>
          obtain ⟨r, hreq⟩ : ∃ u, u = RedBlack.Tree.node rc rl rx rr := ⟨_, rfl⟩
          have hrne : A.ptr r ≠ 0 := hreq ▸ A.ne_zero rx
          rw [← hreq] at hpos hdepth hnode ⊢
          rw [if_neg hrne]
          cases hleft : leftmost r [] with
          | none => exact absurd ((ptr_eq_zero A).mpr (leftmost_eq_none.mp hleft)) hrne
          | some z =>
              obtain ⟨cy, y, child, below⟩ := z
              have hout : r.outermost .left = some y := by
                have hseq := (leftmost_spec hleft).1
                rw [outermost_left, ← List.append_nil r.toList]
                exact (congrArg List.head? hseq).trans rfl
              have hright : m.Represents A
                  (plug r (⟨.right, c, x, .node lc ll lx lr⟩ :: path)) F := hpos
              have hnext := rbDescend_spec hright hout (show r.height ≤ fuel by omega)
              obtain ⟨_, _, hrfits⟩ := (hnode.rekey y).children
              obtain ⟨_, hplace⟩ := hrfits.leftmost (leftmost_append _ hleft)
              obtain ⟨_, _, hchild, hbelow, _⟩ := hplace.parts
              have hlonger := length_le_height_plug (.node cy .nil y child) below
              rw [plug_leftmost hleft, RedBlack.Tree.height, plug] at hlonger
              have hrounds :
                  (below ++ ⟨.right, c, y, .node lc ll lx lr⟩ :: path).length + 2 ≤ fuel := by
                simp only [List.length_append, List.length_cons]
                omega
              obtain ⟨m', v, hm', h'⟩ :=
                rbReplaceBySuccessor_spec hpos (by simp) hleft hchild hbelow hrounds
              refine ⟨m', v, by rw [hnext, Option.bind_some, hm'], ?_⟩
              subst hreq
              simp only [hleft]
              exact h'

end Spe
