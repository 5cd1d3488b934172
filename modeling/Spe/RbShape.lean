import Mathlib.Tactic.Abel
import Spe.RedBlackBalance
import Spe.Rbtree

/-!
# What tree is in memory

A tree over keys is in memory when each of its nodes is at the address of its key, with the
colour in the lowest bit of the parent word, and the pointers are those of the tree
(`RbMem.Represents`).  The cells of a position and the cells of its ancestors are kept apart
(`treeCells_plug`), so that a store below or above a position is seen to change one of the
two only.

The rules below are what the loops of `spe_rbtree.c` are made of: painting a node, moving a
link from one node to another (`relink_spec`), and the rotation, which exchanges the two
nearest ancestors of a position (`rbRotate_spec`).
-/

namespace Spe

open RedBlack
open Cells (Holds)

/-! ## The parent word -/

/-- The two lowest bits are clear. -/
def Aligned (p : Word) : Prop := p &&& 3 = 0

theorem aligned_zero : Aligned 0 := rfl

/-- The lowest bit for a colour. -/
def colorBit : Color → Word
  | .red => 0
  | .black => rbBlack

/-- `rb_parent_color` for a parent and a colour. -/
def pack (p : Word) (c : Color) : Word := p ||| colorBit c

theorem pack_eq (p : Word) (c : Color) : pack p c = p ||| colorBit c := rfl

theorem or_null (p : Word) : p ||| 0 = p := BitVec.or_zero

theorem null_or (p : Word) : 0 ||| p = p := BitVec.zero_or

/-- Masking loses nothing when the bits are clear that it clears. -/
theorem and_not_of_and {p k : Word} (h : p &&& k = 0) : p &&& ~~~k = p := by
  calc p &&& ~~~k = (p &&& k) ||| (p &&& ~~~k) := by rw [h, null_or]
    _ = p &&& (k ||| ~~~k) := (BitVec.and_or_distrib_left).symm
    _ = p &&& BitVec.allOnes 64 := by rw [BitVec.or_not_self]
    _ = p := BitVec.and_allOnes

/-- The colour bit of an address is clear. -/
theorem Aligned.and_one {p : Word} (h : Aligned p) : p &&& 1 = 0 := by
  calc p &&& 1 = (p &&& 3) &&& 1 := by rw [BitVec.and_assoc]; rfl
    _ = 0 := by rw [h]; rfl

/-- `rb_parent` reads the parent. -/
theorem Aligned.pack_parent {p : Word} (h : Aligned p) (c : Color) : pack p c &&& ~~~3 = p := by
  have hbit : colorBit c &&& ~~~3 = 0 := by cases c <;> rfl
  rw [pack_eq, BitVec.and_or_distrib_right, hbit, or_null, and_not_of_and h]

/-- `rb_color` reads the colour. -/
theorem Aligned.pack_color {p : Word} (h : Aligned p) (c : Color) :
    pack p c &&& 1 = colorBit c := by
  have hbit : colorBit c &&& 1 = colorBit c := by cases c <;> rfl
  rw [pack_eq, BitVec.and_or_distrib_right, hbit, h.and_one, null_or]

/-- `rb_set_parent` keeps the colour. -/
theorem Aligned.pack_setParent {p : Word} (h : Aligned p) (c : Color) (q : Word) :
    (pack p c &&& 3) ||| q = pack q c := by
  have hbit : colorBit c &&& 3 = colorBit c := by cases c <;> rfl
  rw [pack_eq, BitVec.and_or_distrib_right, hbit, h, null_or, BitVec.or_comm]
  rfl

/-- `rb_set_color` keeps the parent. -/
theorem Aligned.pack_setColor {p : Word} (h : Aligned p) (c d : Color) :
    (pack p c &&& ~~~1) ||| colorBit d = pack p d := by
  have hbit : colorBit c &&& ~~~1 = 0 := by cases c <;> rfl
  rw [pack_eq, BitVec.and_or_distrib_right, hbit, or_null, and_not_of_and h.and_one]
  rfl

/-- `rb_set_black` keeps the parent. -/
theorem pack_setBlack (p : Word) (c : Color) : pack p c ||| 1 = pack p .black := by
  have hbit : colorBit c ||| 1 = 1 := by cases c <;> rfl
  rw [pack_eq, BitVec.or_assoc, hbit]
  rfl

/-- `rb_set_red` keeps the parent. -/
theorem Aligned.pack_setRed {p : Word} (h : Aligned p) (c : Color) :
    pack p c &&& ~~~1 = pack p .red := by
  have hset := h.pack_setColor c .red
  rwa [colorBit, or_null] at hset

/-! ## One node -/

/-- A node with its parent and colour, its child on one side and the other child. -/
def rbCell (s : RbSide) (parent : Word) (c : Color) (near far : Word) : RbNode :=
  match s with
  | .left => ⟨pack parent c, far, near⟩
  | .right => ⟨pack parent c, near, far⟩

section Cell

variable (s : RbSide) (parent : Word) (c : Color) (near far : Word)

@[simp] theorem rbCell_rbLeft : (rbCell .left parent c near far).rbLeft = near := rfl

@[simp] theorem rbCell_rbRight : (rbCell .left parent c near far).rbRight = far := rfl

theorem rbCell_parentColor : (rbCell s parent c near far).rbParentColor = pack parent c := by
  cases s <;> rfl

/-- The same node, seen from the other side. -/
theorem rbCell_other : rbCell s.other parent c far near = rbCell s parent c near far := by
  cases s <;> rfl

@[simp] theorem rbCell_child : (rbCell s parent c near far).child s = near := by
  cases s <;> rfl

@[simp] theorem rbCell_child_other : (rbCell s parent c near far).child s.other = far := by
  cases s <;> rfl

@[simp] theorem rbCell_setChild (p : Word) :
    (rbCell s parent c near far).setChild s p = rbCell s parent c p far := by
  cases s <;> rfl

@[simp] theorem rbCell_setChild_other (p : Word) :
    (rbCell s parent c near far).setChild s.other p = rbCell s parent c near p := by
  cases s <;> rfl

@[simp] theorem rbCell_setBlack :
    (rbCell s parent c near far).rbSetBlack = rbCell s parent .black near far := by
  rw [RbNode.rbSetBlack, rbCell_parentColor, pack_setBlack]
  cases s <;> rfl

variable {parent}

theorem rbCell_setRed (h : Aligned parent) :
    (rbCell s parent c near far).rbSetRed = rbCell s parent .red near far := by
  rw [RbNode.rbSetRed, rbCell_parentColor, h.pack_setRed]
  cases s <;> rfl

theorem rbCell_setColor (h : Aligned parent) (d : Color) :
    (rbCell s parent c near far).rbSetColor (colorBit d) = rbCell s parent d near far := by
  rw [RbNode.rbSetColor, rbCell_parentColor, h.pack_setColor]
  cases s <;> rfl

theorem rbCell_setParent (h : Aligned parent) (q : Word) :
    (rbCell s parent c near far).rbSetParent q = rbCell s q c near far := by
  rw [RbNode.rbSetParent, rbCell_parentColor, h.pack_setParent]
  cases s <;> rfl

theorem rbCell_parent (h : Aligned parent) : (rbCell s parent c near far).rbParent = parent := by
  rw [RbNode.rbParent, rbCell_parentColor, h.pack_parent]

theorem rbCell_color (h : Aligned parent) : (rbCell s parent c near far).rbColor = colorBit c := by
  rw [RbNode.rbColor, rbCell_parentColor, h.pack_color]

theorem rbCell_isRed (h : Aligned parent) :
    (rbCell s parent c near far).rbIsRed = decide (c = .red) := by
  rw [RbNode.rbIsRed, rbCell_color s c near far h]
  cases c <;> rfl

theorem rbCell_isBlack (h : Aligned parent) :
    (rbCell s parent c near far).rbIsBlack = decide (c = .black) := by
  rw [RbNode.rbIsBlack, rbCell_color s c near far h]
  cases c <;> rfl

end Cell

/-! ## Trees -/

/-- The tree that is in memory. -/
abbrev RbTree := RedBlack.Tree

/-- Where the node of each key is. -/
structure Addressing (α : Type) where
  addr : α → Word
  inj : Function.Injective addr
  ne_zero : ∀ x, addr x ≠ 0
  aligned : ∀ x, Aligned (addr x)

variable {α : Type} (A : Addressing α)

/-- The pointer to a tree. -/
def Addressing.ptr : RbTree α → Word
  | .nil => 0
  | .node _ _ x _ => A.addr x

/-- The cells of a tree whose root has the parent `base`. -/
def treeCells (base : Word) : RbTree α → Multiset (Word × RbNode)
  | .nil => 0
  | .node c l x r =>
      {(A.addr x, rbCell .left base c (A.ptr l) (A.ptr r))} +
        (treeCells (A.addr x) l + treeCells (A.addr x) r)

theorem treeCells_nil (base : Word) : treeCells A base .nil = 0 := rfl

theorem treeCells_node (base : Word) (c : Color) (l : RbTree α) (x : α) (r : RbTree α) :
    treeCells A base (.node c l x r) =
      {(A.addr x, rbCell .left base c (A.ptr l) (A.ptr r))} +
        (treeCells A (A.addr x) l + treeCells A (A.addr x) r) := rfl

/-- The nearest of some ancestors, or `base` when there is none. -/
def Addressing.above (base : Word) : List (Hop α) → Word
  | [] => base
  | h :: _ => A.addr h.key

@[simp] theorem above_cons (base : Word) (h : Hop α) (path : List (Hop α)) :
    A.above base (h :: path) = A.addr h.key := rfl

/-- The cells of the ancestors of a position to which they point by `hole`. -/
def pathCells (base : Word) : Word → List (Hop α) → Multiset (Word × RbNode)
  | _, [] => 0
  | hole, h :: path =>
      {(A.addr h.key, rbCell h.side (A.above base path) h.color hole (A.ptr h.sibling))} +
        (treeCells A (A.addr h.key) h.sibling + pathCells base (A.addr h.key) path)

theorem pathCells_nil (base hole : Word) : pathCells A base hole ([] : List (Hop α)) = 0 := rfl

theorem pathCells_cons (base hole : Word) (h : Hop α) (path : List (Hop α)) :
    pathCells A base hole (h :: path) =
      {(A.addr h.key, rbCell h.side (A.above base path) h.color hole (A.ptr h.sibling))} +
        (treeCells A (A.addr h.key) h.sibling + pathCells A base (A.addr h.key) path) := rfl

/-- The pointer to the whole of a tree with a position to which `hole` points. -/
def Addressing.top : Word → List (Hop α) → Word
  | hole, [] => hole
  | _, h :: path => top (A.addr h.key) path

@[simp] theorem ptr_nil : A.ptr .nil = 0 := rfl

@[simp] theorem ptr_node (c : Color) (l r : RbTree α) (x : α) :
    A.ptr (.node c l x r) = A.addr x := rfl

@[simp] theorem ptr_paint (c : Color) (t : RbTree α) : A.ptr (t.paint c) = A.ptr t := by
  cases t <;> rfl

@[simp] theorem ptr_attach (h : Hop α) (t : RbTree α) : A.ptr (h.attach t) = A.addr h.key := by
  unfold Hop.attach
  cases h.side <;> rfl

theorem ptr_eq_zero {t : RbTree α} : A.ptr t = 0 ↔ t = .nil := by
  cases t with
  | nil => simp
  | node c l x r => exact iff_of_false (A.ne_zero x) (by simp)

theorem ptr_plug (t : RbTree α) (path : List (Hop α)) :
    A.ptr (plug t path) = A.top (A.ptr t) path := by
  induction path generalizing t with
  | nil => rfl
  | cons h path ih => rw [plug, ih, ptr_attach]; rfl

theorem aligned_above {base : Word} (hbase : Aligned base) (path : List (Hop α)) :
    Aligned (A.above base path) := by
  cases path with
  | nil => exact hbase
  | cons h path => exact A.aligned h.key

/-- The cells of a node, seen from either side. -/
theorem treeCells_attach (base : Word) (h : Hop α) (t : RbTree α) :
    treeCells A base (h.attach t) =
      {(A.addr h.key, rbCell h.side base h.color (A.ptr t) (A.ptr h.sibling))} +
        (treeCells A (A.addr h.key) t + treeCells A (A.addr h.key) h.sibling) := by
  unfold Hop.attach
  cases h.side with
  | left => rfl
  | right => rw [treeCells_node, add_comm (treeCells A _ t)]; rfl

/-- **Focus.**  The cells of a tree are those of a position and those of its ancestors. -/
theorem treeCells_plug (base : Word) (t : RbTree α) (path : List (Hop α)) :
    treeCells A base (plug t path) =
      treeCells A (A.above base path) t + pathCells A base (A.ptr t) path := by
  induction path generalizing t with
  | nil => simp [plug, pathCells_nil, Addressing.above]
  | cons h path ih =>
      rw [plug, ih, treeCells_attach, ptr_attach, pathCells_cons, above_cons]
      abel

/-- The tree is in memory, beside the cells `F`. -/
structure RbMem.Represents (m : RbMem) (A : Addressing α) (t : RbTree α)
    (F : Multiset (Word × RbNode)) : Prop where
  cells : Holds m.node (treeCells A 0 t + F)
  root : m.root = A.ptr t

/-! ## Stores -/

/-- A pointer to a node is not null. -/
theorem modifyIf_ptr {t : RbTree α} (ht : t ≠ .nil) (m : RbMem) (f : RbNode → RbNode) :
    m.modifyIf (A.ptr t) f = m.modify (A.ptr t) f :=
  if_neg (fun h => ht ((ptr_eq_zero A).mp h))

theorem isRedAt_addr (m : RbMem) (x : α) :
    m.isRedAt (A.addr x) = (m.node (A.addr x)).map RbNode.rbIsRed := if_neg (A.ne_zero x)

theorem isBlackAt_addr (m : RbMem) (x : α) :
    m.isBlackAt (A.addr x) = (m.node (A.addr x)).map RbNode.rbIsBlack := if_neg (A.ne_zero x)

/-- The link from a parent that is there. -/
theorem relink_addr (m : RbMem) (s : RbSide) (x : α) (old new : Word) :
    m.relink s (A.addr x) old new = (m.node (A.addr x)).bind fun p =>
      if p.child s = old then m.modify (A.addr x) (·.setChild s new)
      else m.modify (A.addr x) (·.setChild s.other new) := if_neg (A.ne_zero x)

variable {A} {m : RbMem} {F : Multiset (Word × RbNode)}

/-- A store changes one cell. -/
theorem modify_spec {a : Word} {v : RbNode} (h : Holds m.node ({(a, v)} + F))
    (f : RbNode → RbNode) :
    ∃ m', m.modify a f = some m' ∧ Holds m'.node ({(a, f v)} + F) ∧ m'.root = m.root := by
  obtain ⟨nodes, hmodify, hnodes⟩ := h.modify f
  refine ⟨{ m with node := nodes }, ?_, hnodes, rfl⟩
  show (Cells.modify m.node a f).map _ = some _
  rw [hmodify, Option.map_some]

/-- Only the root of a tree knows the parent of the tree. -/
theorem setParent_spec {b : Word} {t : RbTree α} (h : Holds m.node (treeCells A b t + F))
    (hb : Aligned b) (q : Word) :
    ∃ m', m.modifyIf (A.ptr t) (·.rbSetParent q) = some m' ∧
      Holds m'.node (treeCells A q t + F) ∧ m'.root = m.root := by
  cases t with
  | nil => exact ⟨m, if_pos (ptr_nil A), h, rfl⟩
  | node c l x r =>
      obtain ⟨m', hm', hcells, hroot⟩ := modify_spec (h.congr (add_assoc _ _ _)) (·.rbSetParent q)
      refine ⟨m', ?_, ?_, hroot⟩
      · rw [modifyIf_ptr A (by simp)]
        exact hm'
      · rw [rbCell_setParent _ _ _ _ hb] at hcells
        exact hcells.congr (add_assoc _ _ _).symm

/-- A tree does not have the address of another node. -/
theorem ptr_ne {old b : Word} {v : RbNode} {t : RbTree α}
    (h : Holds m.node ({(old, v)} + (treeCells A b t + F))) (hold : old ≠ 0) : A.ptr t ≠ old := by
  cases t with
  | nil => exact hold.symm
  | node c l x r =>
      have hcells : Holds m.node ({(old, v)} + ({(A.addr x, rbCell .left b c (A.ptr l) (A.ptr r))} +
          (treeCells A (A.addr x) l + treeCells A (A.addr x) r + F))) :=
        h.congr (by rw [treeCells_node]; abel)
      exact hcells.ne.symm

/-- **Link rule.**  The link to a node becomes a link to another one. -/
theorem relink_spec {old : Word} {v : RbNode} {path : List (Hop α)} (s : RbSide) (new : Word)
    (h : Holds m.node ({(old, v)} + (pathCells A 0 old path + F))) (hold : old ≠ 0)
    (hroot : m.root = A.top old path) :
    ∃ m', m.relink s (A.above 0 path) old new = some m' ∧
      Holds m'.node ({(old, v)} + (pathCells A 0 new path + F)) ∧ m'.root = A.top new path := by
  cases path with
  | nil => exact ⟨{ m with root := new }, rfl, h, rfl⟩
  | cons p path =>
      have hcell : Holds m.node ({(A.addr p.key,
          rbCell p.side (A.above 0 path) p.color old (A.ptr p.sibling))} +
          ({(old, v)} + (treeCells A (A.addr p.key) p.sibling +
            (pathCells A 0 (A.addr p.key) path + F)))) :=
        h.congr (by rw [pathCells_cons]; abel)
      have hsibling : A.ptr p.sibling ≠ old := by
        have hcells : Holds m.node ({(old, v)} + (treeCells A (A.addr p.key) p.sibling +
            ({(A.addr p.key, rbCell p.side (A.above 0 path) p.color old (A.ptr p.sibling))} +
            (pathCells A 0 (A.addr p.key) path + F)))) :=
          h.congr (by rw [pathCells_cons]; abel)
        exact ptr_ne hcells hold
      obtain ⟨m', hm', hcells, hroot'⟩ := modify_spec hcell (·.setChild p.side new)
      refine ⟨m', ?_, ?_, hroot'.trans hroot⟩
      · show m.relink s (A.addr p.key) old new = some m'
        rw [relink_addr, hcell.read, Option.bind_some]
        by_cases hs : s = p.side
        · subst hs
          rw [rbCell_child, if_pos rfl]
          exact hm'
        · have hother : s = p.side.other := by
            cases s <;> cases hp : p.side <;> simp_all [RedBlack.Side.other]
          subst hother
          rw [rbCell_child_other, if_neg hsibling, side_other_other]
          exact hm'
      · rw [rbCell_setChild] at hcells
        exact hcells.congr (by rw [pathCells_cons]; abel)

/-- The other child of an ancestor is a position, too. -/
theorem plug_sibling (s : RbSide) (c : Color) (x : α) (near far : RbTree α) (path : List (Hop α)) :
    plug near (⟨s, c, x, far⟩ :: path) = plug far (⟨s.other, c, x, near⟩ :: path) := by
  cases s <;> rfl

/-- The cells of a tree with a position, taken apart. -/
theorem RbMem.Represents.focus {t : RbTree α} {path : List (Hop α)}
    (h : m.Represents A (plug t path) F) :
    Holds m.node (treeCells A (A.above 0 path) t + (pathCells A 0 (A.ptr t) path + F)) ∧
      m.root = A.top (A.ptr t) path :=
  ⟨h.cells.congr (by rw [treeCells_plug]; abel), h.root.trans (ptr_plug A t path)⟩

/-- The cells of a position and of its ancestors make a tree. -/
theorem represents_of_focus {t : RbTree α} {path : List (Hop α)}
    (h : Holds m.node (treeCells A (A.above 0 path) t + (pathCells A 0 (A.ptr t) path + F)))
    (hroot : m.root = A.top (A.ptr t) path) : m.Represents A (plug t path) F :=
  ⟨h.congr (by rw [treeCells_plug]; abel), hroot.trans (ptr_plug A t path).symm⟩

/-- The node at a position. -/
theorem RbMem.Represents.node {c : Color} {l r : RbTree α} {x : α} {path : List (Hop α)}
    (h : m.Represents A (plug (.node c l x r) path) F) :
    m.node (A.addr x) = some (rbCell .left (A.above 0 path) c (A.ptr l) (A.ptr r)) :=
  Holds.read (h.focus.1.congr (by rw [treeCells_node, add_assoc]))

/-- The parent that a node knows. -/
theorem RbMem.Represents.rbParent {u : RbTree α} {path : List (Hop α)}
    (h : m.Represents A (plug u path) F) (hne : u ≠ .nil) :
    ∃ n, m.node (A.ptr u) = some n ∧ n.rbParent = A.above 0 path := by
  cases u with
  | nil => exact absurd rfl hne
  | node c l x r =>
      exact ⟨_, h.node, rbCell_parent _ _ _ _ (aligned_above A aligned_zero path)⟩

/-- The nearest ancestor of a position. -/
theorem RbMem.Represents.parent {t : RbTree α} {p : Hop α} {path : List (Hop α)}
    (h : m.Represents A (plug t (p :: path)) F) :
    m.node (A.addr p.key) =
      some (rbCell p.side (A.above 0 path) p.color (A.ptr t) (A.ptr p.sibling)) := by
  rw [plug, Hop.attach] at h
  cases hs : p.side with
  | left =>
      rw [hs] at h
      exact h.node
  | right =>
      rw [hs] at h
      exact h.node.trans (congrArg some (rbCell_other .right _ _ _ _))

/-- The two children of a node are not the same node. -/
theorem RbMem.Represents.ptr_ne {t : RbTree α} {p : Hop α} {path : List (Hop α)}
    (h : m.Represents A (plug t (p :: path)) F) (ht : t ≠ .nil ∨ p.sibling ≠ .nil) :
    A.ptr p.sibling ≠ A.ptr t := by
  have hcells := h.focus.1
  rw [pathCells_cons, above_cons] at hcells
  cases t with
  | nil =>
      intro heq
      exact ht.elim (fun h => h rfl) (fun h => h ((ptr_eq_zero A).mp heq))
  | node c l x r =>
      have hnode : Holds m.node ({(A.addr x, rbCell .left (A.addr p.key) c (A.ptr l) (A.ptr r))} +
          (treeCells A (A.addr p.key) p.sibling + (treeCells A (A.addr x) l +
          treeCells A (A.addr x) r + {(A.addr p.key, rbCell p.side (A.above 0 path) p.color
            (A.addr x) (A.ptr p.sibling))} + pathCells A 0 (A.addr p.key) path + F))) :=
        hcells.congr (by rw [treeCells_node, ptr_node]; abel)
      exact Spe.ptr_ne hnode (A.ne_zero x)

/-- Looking for a position on the left of its parent tells its side. -/
theorem RbMem.Represents.side_eq {t : RbTree α} {p : Hop α} {path : List (Hop α)}
    (h : m.Represents A (plug t (p :: path)) F) (ht : t ≠ .nil ∨ p.sibling ≠ .nil) :
    (if (rbCell p.side (A.above 0 path) p.color (A.ptr t) (A.ptr p.sibling)).rbLeft = A.ptr t
      then RedBlack.Side.left else RedBlack.Side.right) = p.side := by
  have hne := h.ptr_ne ht
  cases hs : p.side with
  | left => exact if_pos rfl
  | right => exact if_neg hne

/-- `p && rb_is_red(p)` for the pointer to a position. -/
theorem RbMem.Represents.isRedAt {t : RbTree α} {path : List (Hop α)}
    (h : m.Represents A (plug t path) F) : m.isRedAt (A.ptr t) = some t.isRed := by
  cases t with
  | nil => rfl
  | node c l x r =>
      rw [ptr_node, isRedAt_addr, h.node, Option.map_some,
        rbCell_isRed _ _ _ _ (aligned_above A aligned_zero path)]
      cases c <;> rfl

/-- `!p || rb_is_black(p)` for the pointer to a position. -/
theorem RbMem.Represents.isBlackAt {t : RbTree α} {path : List (Hop α)}
    (h : m.Represents A (plug t path) F) : m.isBlackAt (A.ptr t) = some (!t.isRed) := by
  cases t with
  | nil => rfl
  | node c l x r =>
      rw [ptr_node, isBlackAt_addr, h.node, Option.map_some,
        rbCell_isBlack _ _ _ _ (aligned_above A aligned_zero path)]
      cases c <;> rfl

/-- **Paint rule.**  A store that changes the colour of a node changes the colour of a
position. -/
theorem paint_spec {c d : Color} {l r : RbTree α} {x : α} {path : List (Hop α)}
    {f : RbNode → RbNode} (h : m.Represents A (plug (.node c l x r) path) F)
    (hf : ∀ p near far, Aligned p → f (rbCell .left p c near far) = rbCell .left p d near far) :
    ∃ m', m.modify (A.addr x) f = some m' ∧
      m'.Represents A (plug (.node d l x r) path) F := by
  obtain ⟨hcells, hroot⟩ := h.focus
  rw [treeCells_node, add_assoc] at hcells
  obtain ⟨m', hm', hcells', hroot'⟩ := modify_spec hcells f
  rw [hf _ _ _ (aligned_above A aligned_zero path)] at hcells'
  refine ⟨m', hm', represents_of_focus ?_ (hroot'.trans hroot)⟩
  rw [treeCells_node, add_assoc]
  exact hcells'

/-- The same for the nearest ancestor. -/
theorem paint_parent_spec {s : RbSide} {c d : Color} {x : α} {far t : RbTree α}
    {path : List (Hop α)} {f : RbNode → RbNode}
    (h : m.Represents A (plug t (⟨s, c, x, far⟩ :: path)) F)
    (hf : ∀ p near far, Aligned p → f (rbCell .left p c near far) = rbCell .left p d near far) :
    ∃ m', m.modify (A.addr x) f = some m' ∧
      m'.Represents A (plug t (⟨s, d, x, far⟩ :: path)) F := by
  cases s with
  | left => exact paint_spec h hf
  | right => exact paint_spec h hf

/-- **Rotation rule.**  A rotation exchanges the two nearest ancestors of a position between
them. -/
theorem rbRotate_spec {s : RbSide} {c d : Color} {x y : α} {inner outer far : RbTree α}
    {path : List (Hop α)}
    (h : m.Represents A (plug inner (⟨s.other, d, y, outer⟩ :: ⟨s, c, x, far⟩ :: path)) F) :
    ∃ m', rbRotate s (A.addr x) m = some m' ∧
      m'.Represents A (plug inner (⟨s, c, x, far⟩ :: ⟨s.other, d, y, outer⟩ :: path)) F := by
  obtain ⟨hcells, hroot⟩ := h.focus
  have habove : Aligned (A.above 0 path) := aligned_above A aligned_zero path
  simp only [pathCells_cons, above_cons] at hcells
  obtain ⟨rest, hrest⟩ : ∃ rest, rest =
      treeCells A (A.addr y) outer + treeCells A (A.addr x) far + F := ⟨_, rfl⟩
  have hx : Holds m.node ({(A.addr x, rbCell s (A.above 0 path) c (A.addr y) (A.ptr far))} +
      ({(A.addr y, rbCell s.other (A.addr x) d (A.ptr inner) (A.ptr outer))} +
        (treeCells A (A.addr y) inner + pathCells A 0 (A.addr x) path + rest))) :=
    hcells.congr (by rw [hrest]; abel)
  have hy : m.node (A.addr y) = some (rbCell s.other (A.addr x) d (A.ptr inner) (A.ptr outer)) :=
    Holds.read (hx.congr (add_left_comm _ _ _))
  obtain ⟨m₁, hm₁, h₁, hr₁⟩ := modify_spec hx (·.setChild s (A.ptr inner))
  have hinner : Holds m₁.node (treeCells A (A.addr y) inner +
      ({(A.addr x, rbCell s (A.above 0 path) c (A.ptr inner) (A.ptr far))} +
      ({(A.addr y, rbCell s.other (A.addr x) d (A.ptr inner) (A.ptr outer))} +
        (pathCells A 0 (A.addr x) path + rest)))) :=
    h₁.congr (by rw [rbCell_setChild]; abel)
  obtain ⟨m₂, hm₂, h₂, hr₂⟩ := setParent_spec hinner (A.aligned y) (A.addr x)
  have hup : Holds m₂.node
      ({(A.addr y, rbCell s.other (A.addr x) d (A.ptr inner) (A.ptr outer))} +
      ({(A.addr x, rbCell s (A.above 0 path) c (A.ptr inner) (A.ptr far))} +
        (treeCells A (A.addr x) inner + pathCells A 0 (A.addr x) path + rest))) :=
    h₂.congr (by abel)
  obtain ⟨m₃, hm₃, h₃, hr₃⟩ := modify_spec hup (·.setChild s.other (A.addr x))
  rw [rbCell_setChild] at h₃
  obtain ⟨m₄, hm₄, h₄, hr₄⟩ := modify_spec h₃ (·.rbSetParent (A.above 0 path))
  rw [rbCell_setParent _ _ _ _ (A.aligned x)] at h₄
  have hlink : Holds m₄.node
      ({(A.addr x, rbCell s (A.above 0 path) c (A.ptr inner) (A.ptr far))} +
        (pathCells A 0 (A.addr x) path +
        ({(A.addr y, rbCell s.other (A.above 0 path) d (A.addr x) (A.ptr outer))} +
        (treeCells A (A.addr x) inner + rest)))) :=
    h₄.congr (by abel)
  obtain ⟨m₅, hm₅, h₅, hr₅⟩ := relink_spec s.other (A.addr y) hlink (A.ne_zero x)
    (by rw [hr₄, hr₃, hr₂, hr₁]; exact hroot)
  obtain ⟨m₆, hm₆, h₆, hr₆⟩ := modify_spec h₅ (·.rbSetParent (A.addr y))
  rw [rbCell_setParent _ _ _ _ habove] at h₆
  refine ⟨m₆, ?_, represents_of_focus ?_ (hr₆.trans hr₅)⟩
  · simp only [rbRotate, hx.read, Option.bind_eq_bind, Option.bind_some, rbCell_child, hy, hm₁,
      hm₂, hm₃, rbCell_parent _ _ _ _ habove, hm₄, hm₅, hm₆]
  · simp only [pathCells_cons, above_cons]
    exact h₆.congr (by rw [hrest]; abel)

end Spe
