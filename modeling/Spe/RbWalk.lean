import Spe.RbShape

/-!
# Walking over the tree in memory

`rb_first` and `rb_last` find the ends of the in-order sequence, `rb_next` and `rb_prev` the
neighbours of a node in it, or null where there is none (`rbEnd_spec`, `rbStep_spec`).  No
walk takes more rounds than the tree is high, plus one.
-/

namespace RedBlack

variable {α : Type}

/-- The outermost key on one side. -/
def Tree.outermost (s : Side) : Tree α → Option α
  | .nil => none
  | .node _ l x r =>
      some ((match s with
        | .left => l.outermost s
        | .right => r.outermost s).getD x)

theorem outermost_nil (s : Side) : (Tree.nil : Tree α).outermost s = none := rfl

theorem outermost_node_left (c : Color) (l : Tree α) (x : α) (r : Tree α) :
    (Tree.node c l x r).outermost .left = some ((l.outermost .left).getD x) := rfl

theorem outermost_node_right (c : Color) (l : Tree α) (x : α) (r : Tree α) :
    (Tree.node c l x r).outermost .right = some ((r.outermost .right).getD x) := rfl

/-- Only nothing has no outermost key. -/
theorem outermost_eq_none {s : Side} {t : Tree α} : t.outermost s = none ↔ t = .nil := by
  cases t with
  | nil => simp [outermost_nil]
  | node c l x r => cases s <;> simp [outermost_node_left, outermost_node_right]

/-- The outermost keys are the ends of the sequence. -/
theorem outermost_left (t : Tree α) : t.outermost .left = t.toList.head? := by
  induction t with
  | nil => rfl
  | node c l x r ihl _ =>
      rw [outermost_node_left, ihl, Tree.toList_node, List.head?_append]
      cases l.toList.head? <;> rfl

theorem outermost_right (t : Tree α) : t.outermost .right = t.toList.getLast? := by
  induction t with
  | nil => rfl
  | node c l x r _ ihr =>
      rw [outermost_node_right, ihr, Tree.toList_node, List.getLast?_append, List.getLast?_cons]
      rfl

/-- The nearest ancestor to which a position is not on side `s`. -/
def climb (s : Side) : List (Hop α) → Option α
  | [] => none
  | p :: path => if p.side = s then climb s path else some p.key

theorem climb_cons (s : Side) (p : Hop α) (path : List (Hop α)) :
    climb s (p :: path) = if p.side = s then climb s path else some p.key := rfl

/-- To the right of a position comes the nearest ancestor that it is to the left of. -/
theorem climb_right (path : List (Hop α)) : climb .right path = (keysAfter path).head? := by
  induction path with
  | nil => rfl
  | cons p path ih =>
      rw [climb_cons, keysAfter]
      cases p.side with
      | left => rfl
      | right => exact ih

theorem climb_left (path : List (Hop α)) : climb .left path = (keysBefore path).getLast? := by
  induction path with
  | nil => rfl
  | cons p path ih =>
      rw [climb_cons, keysBefore]
      cases p.side with
      | left => exact ih
      | right => simp

/-- Every occurrence of a key is at a position. -/
theorem exists_position {t : Tree α} {pre post : List α} {x : α}
    (h : t.toList = pre ++ x :: post) :
    ∃ c l r path, plug (.node c l x r) path = t ∧ keysBefore path ++ l.toList = pre ∧
      r.toList ++ keysAfter path = post := by
  induction t generalizing pre post with
  | nil => simp at h
  | node c l y r ihl ihr =>
      rw [Tree.toList_node] at h
      rcases List.append_eq_append_iff.mp h with ⟨mid, hpre, hrest⟩ | ⟨mid, hl, hrest⟩
      · cases mid with
        | nil =>
            obtain ⟨rfl, rfl⟩ := List.cons.inj hrest
            exact ⟨c, l, r, [], rfl, by simp [hpre, keysBefore], by simp [keysAfter]⟩
        | cons z mid =>
            obtain ⟨rfl, hr⟩ := List.cons.inj hrest
            obtain ⟨d, a, b, path, hplug, hbefore, hafter⟩ := ihr hr
            refine ⟨d, a, b, path ++ [⟨.right, c, y, l⟩], ?_, ?_, ?_⟩
            · rw [plug_append, hplug]
              rfl
            · rw [keysBefore_append, List.append_assoc, hbefore, hpre]
              simp [keysBefore]
            · rw [keysAfter_append, ← hafter]
              simp [keysAfter]
      · cases mid with
        | nil =>
            obtain ⟨rfl, rfl⟩ := List.cons.inj hrest
            exact ⟨c, l, r, [], rfl, by simp [hl, keysBefore], by simp [keysAfter]⟩
        | cons z mid =>
            obtain ⟨rfl, hpost⟩ := List.cons.inj hrest
            obtain ⟨d, a, b, path, hplug, hbefore, hafter⟩ := ihl hl
            refine ⟨d, a, b, path ++ [⟨.left, c, y, r⟩], ?_, ?_, ?_⟩
            · rw [plug_append, hplug]
              rfl
            · rw [keysBefore_append, ← hbefore]
              simp [keysBefore]
            · rw [keysAfter_append, ← List.append_assoc, hafter, hpost]
              simp [keysAfter]

end RedBlack

namespace Spe

open RedBlack
open Cells (Holds)

variable {α : Type} {A : Addressing α} {m : RbMem} {F : Multiset (Word × RbNode)}

/-- The pointer to the node of a key, or null. -/
def Addressing.ref (A : Addressing α) : Option α → Word
  | none => 0
  | some x => A.addr x

/-- The child of a node on one side. -/
theorem RbMem.Represents.child {c : Color} {l r : RbTree α} {x : α} {path : List (Hop α)}
    (s : RbSide) (h : m.Represents A (plug (.node c l x r) path) F) :
    ∃ n, m.node (A.addr x) = some n ∧ n.rbParent = A.above 0 path ∧
      n.child s = A.ptr ((RedBlack.Tree.node c l x r).child s) := by
  refine ⟨_, h.node, rbCell_parent _ _ _ _ (aligned_above A aligned_zero path), ?_⟩
  cases s <;> rfl

/-- A walk down ends at the outermost key. -/
theorem rbDescend_spec {s : RbSide} {t : RbTree α} {x : α} {path : List (Hop α)}
    (h : m.Represents A (plug t path) F) (hx : t.outermost s = some x) {fuel : Nat}
    (hfuel : t.height ≤ fuel) : rbDescend s fuel (A.ptr t) m = some (A.addr x) := by
  induction t generalizing path fuel with
  | nil => simp [outermost_nil] at hx
  | node c l y r ihl ihr =>
      rw [RedBlack.Tree.height] at hfuel
      obtain ⟨fuel, rfl⟩ := Nat.exists_eq_add_of_le' (Nat.le_of_add_left_le hfuel)
      obtain ⟨n, hn, _, hchild⟩ := h.child s
      obtain ⟨u, hu⟩ : ∃ u, u = (RedBlack.Tree.node c l y r).child s := ⟨_, rfl⟩
      have hbelow : m.Represents A
          (plug u (⟨s, c, y, (RedBlack.Tree.node c l y r).child s.other⟩ :: path)) F := by
        rw [← attach_child s c l r y, ← hu] at h
        exact h
      have hout : (u.outermost s).getD y = x := by
        rw [hu]
        cases s <;> exact Option.some.inj hx
      rw [← hu] at hchild
      simp only [rbDescend, ptr_node, hn, Option.bind_eq_bind, Option.bind_some, hchild]
      cases hcase : u.outermost s with
      | none =>
          have hnil : u = .nil := outermost_eq_none.mp hcase
          rw [hcase] at hout
          rw [if_pos ((ptr_eq_zero A).mpr hnil), ← hout]
          rfl
      | some z =>
          have hne : u ≠ .nil := by
            intro hnil
            cases (outermost_eq_none.mpr hnil).symm.trans hcase
          rw [hcase] at hout
          obtain rfl : z = x := hout
          rw [if_neg (fun h => hne ((ptr_eq_zero A).mp h))]
          subst hu
          cases s with
          | left => exact ihl hbelow hcase (by omega)
          | right => exact ihr hbelow hcase (by omega)

/-- **Ends.**  `rb_first` and `rb_last` find the ends of the sequence. -/
theorem rbEnd_spec {t : RbTree α} (h : m.Represents A t F) (s : RbSide) {fuel : Nat}
    (hfuel : t.height ≤ fuel) : rbEnd s fuel m = some (A.ref (t.outermost s)) := by
  rw [rbEnd, h.root]
  cases t with
  | nil => rfl
  | node c l x r =>
      have hpos : m.Represents A (plug (.node c l x r) []) F := h
      rw [ptr_node, if_neg (A.ne_zero x)]
      exact rbDescend_spec hpos rfl hfuel

/-- A node is not its own parent. -/
theorem RbMem.Represents.above_ne {c : Color} {l r : RbTree α} {x : α} {path : List (Hop α)}
    (h : m.Represents A (plug (.node c l x r) path) F) : A.above 0 path ≠ A.addr x := by
  cases path with
  | nil => exact (A.ne_zero x).symm
  | cons p path =>
      have hcells := h.focus.1
      have hpair : Holds m.node
          ({(A.addr p.key, rbCell p.side (A.above 0 path) p.color (A.addr x) (A.ptr p.sibling))} +
          ({(A.addr x, rbCell .left (A.addr p.key) c (A.ptr l) (A.ptr r))} +
          (treeCells A (A.addr x) l + treeCells A (A.addr x) r +
            treeCells A (A.addr p.key) p.sibling + pathCells A 0 (A.addr p.key) path + F))) :=
        hcells.congr (by rw [treeCells_node, pathCells_cons, above_cons, ptr_node]; abel)
      exact hpair.ne

/-- A walk up ends at the nearest ancestor to which the node is not on side `s`. -/
theorem rbClimb_spec {s : RbSide} {t : RbTree α} {path : List (Hop α)}
    (h : m.Represents A (plug t path) F) (hne : t ≠ .nil) {fuel : Nat}
    (hfuel : path.length + 1 ≤ fuel) :
    rbClimb s fuel (A.ptr t) m = some (A.ref (climb s path)) := by
  induction path generalizing t fuel with
  | nil =>
      obtain ⟨fuel, rfl⟩ := Nat.exists_eq_add_of_le' (Nat.le_of_add_left_le hfuel)
      obtain ⟨n, hn, hparent⟩ := h.rbParent hne
      simp only [rbClimb, hn, Option.bind_eq_bind, Option.bind_some, hparent]
      rfl
  | cons p path ih =>
      obtain ⟨fuel, rfl⟩ := Nat.exists_eq_add_of_le' (Nat.le_of_add_left_le hfuel)
      obtain ⟨n, hn, hparent⟩ := h.rbParent hne
      have hside : (rbCell p.side (A.above 0 path) p.color (A.ptr t) (A.ptr p.sibling)).child s ≠
          A.ptr t ↔ p.side ≠ s := by
        by_cases hs : p.side = s
        · rw [← hs, rbCell_child]
          simp
        · obtain rfl : s = p.side.other := by
            cases s <;> cases hp : p.side <;> simp_all [RedBlack.Side.other]
          rw [rbCell_child_other]
          exact iff_of_true (h.ptr_ne (Or.inl hne)) hs
      simp only [rbClimb, hn, Option.bind_eq_bind, Option.bind_some, hparent, above_cons,
        A.ne_zero, if_false, h.parent, hside, climb_cons]
      by_cases hs : p.side = s
      · have hrounds : path.length + 1 ≤ fuel := by
          simp only [List.length_cons] at hfuel
          omega
        have hrest := ih (t := p.attach t) h (attach_ne_nil p t) hrounds
        rw [ptr_attach] at hrest
        rw [if_neg (not_not.mpr hs), if_pos hs]
        exact hrest
      · rw [if_pos hs, if_neg hs]
        rfl

/-- The neighbour of a node is the nearest key of its subtree on that side, or else of its
ancestors. -/
theorem rbStep_spec {c : Color} {l r : RbTree α} {x : α} {path : List (Hop α)}
    (h : m.Represents A (plug (.node c l x r) path) F) (s : RbSide) {fuel : Nat}
    (hfuel : (plug (.node c l x r) path).height + 1 ≤ fuel) :
    rbStep s fuel (A.addr x) m =
      some (A.ref
        ((((RedBlack.Tree.node c l x r).child s).outermost s.other).or (climb s path))) := by
  obtain ⟨n, hn, hparent, hchild⟩ := h.child s
  have hdepth := length_le_height_plug (.node c l x r) path
  rw [RedBlack.Tree.height] at hdepth
  obtain ⟨u, hu⟩ : ∃ u, u = (RedBlack.Tree.node c l x r).child s := ⟨_, rfl⟩
  have hheight : u.height ≤ max l.height r.height := by
    rw [hu]
    cases s with
    | left => exact Nat.le_max_left _ _
    | right => exact Nat.le_max_right _ _
  rw [← hu] at hchild ⊢
  simp only [rbStep, hn, Option.bind_eq_bind, Option.bind_some, hparent, h.above_ne, if_false,
    hchild]
  cases hcase : u.outermost s.other with
  | none =>
      have hnil : u = .nil := outermost_eq_none.mp hcase
      rw [if_neg (not_not.mpr ((ptr_eq_zero A).mpr hnil)), Option.none_or]
      exact rbClimb_spec h (by simp) (by omega)
  | some z =>
      have hne : u ≠ .nil := by
        intro hnil
        cases (outermost_eq_none.mpr hnil).symm.trans hcase
      have hbelow : m.Represents A
          (plug u (⟨s, c, x, (RedBlack.Tree.node c l x r).child s.other⟩ :: path)) F := by
        rw [← attach_child s c l r x, ← hu] at h
        exact h
      rw [if_pos (fun h => hne ((ptr_eq_zero A).mp h)), Option.some_or]
      exact rbDescend_spec hbelow hcase (by omega)

/-- **Neighbours.**  `rb_next` and `rb_prev` step through the sequence. -/
theorem rbNext_rbPrev_spec {t : RbTree α} {pre post : List α} {x : α}
    (h : m.Represents A t F) (hx : t.toList = pre ++ x :: post) {fuel : Nat}
    (hfuel : t.height + 1 ≤ fuel) :
    rbNext fuel (A.addr x) m = some (A.ref post.head?) ∧
      rbPrev fuel (A.addr x) m = some (A.ref pre.getLast?) := by
  obtain ⟨c, l, r, path, rfl, rfl, rfl⟩ := exists_position hx
  constructor
  · rw [rbNext, rbStep_spec h .right hfuel, climb_right, List.head?_append, ← outermost_left r]
    rfl
  · rw [rbPrev, rbStep_spec h .left hfuel, climb_left, List.getLast?_append, ← outermost_right l]
    rfl

end Spe
