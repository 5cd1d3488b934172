import Spe.TaskMemory

/-!
# Arming and disarming in memory

A timer node is in the tree, or it is as `rb_init_node` leaves it (`RbMem.InMemory`).  Arming
walks down to the place where the key belongs, hangs the node there and repairs the colours;
disarming erases the node and clears it.  Both are what the tree of keys does
(`RbMem.InMemory.insert`, `RbMem.InMemory.erase`), and both say that the walks return.
-/

namespace Spe

open RedBlack

section Nodes

variable {α : Type} {A : Addressing α} {m : RbMem} {F : Multiset (Word × RbNode)}

/-- A node as `rb_init_node` leaves it. -/
def Addressing.cleared (A : Addressing α) (x : α) : RbNode := ⟨A.addr x, 0, 0⟩

/-- `rb_init_node` clears a node that is not in the tree. -/
theorem rbInitNode_spec {t : RbTree α} {x : α} {v : RbNode}
    (h : m.Represents A t ({(A.addr x, v)} + F)) :
    ∃ m', rbInitNode (A.addr x) m = some m' ∧
      m'.Represents A t ({(A.addr x, A.cleared x)} + F) := by
  obtain ⟨m₁, hm₁, h₁, hr₁⟩ := modify_spec (h.cells.congr (add_left_comm _ _ _))
    (fun r => { r with rbParentColor := 0 })
  obtain ⟨m₂, hm₂, h₂, hr₂⟩ := modify_spec h₁ (·.setChild .right 0)
  obtain ⟨m₃, hm₃, h₃, hr₃⟩ := modify_spec h₂ (·.setChild .left 0)
  obtain ⟨m₄, hm₄, h₄, hr₄⟩ := modify_spec h₃ (·.rbSetParent (A.addr x))
  refine ⟨m₄, ?_, h₄.congr ?_, by rw [hr₄, hr₃, hr₂, hr₁, h.root]⟩
  · simp only [rbInitNode, hm₁, hm₂, hm₃, hm₄, Option.bind_eq_bind, Option.bind_some]
  · have hcell : ((({ v with rbParentColor := 0 }.setChild .right 0).setChild .left 0).rbSetParent
        (A.addr x)) = A.cleared x := by
      show RbNode.mk ((0 &&& 3) ||| A.addr x) 0 0 = RbNode.mk (A.addr x) 0 0
      rw [show (0 &&& 3 : Word) = 0 from rfl, null_or]
    rw [hcell, add_left_comm]

/-- The place of the link to a position. -/
def Addressing.link (A : Addressing α) : List (Hop α) → RbLink
  | [] => .root
  | p :: _ => .child p.side (A.addr p.key)

/-- The link to a position leads to it. -/
theorem RbMem.Represents.load {t : RbTree α} {path : List (Hop α)}
    (h : m.Represents A (plug t path) F) : m.load (A.link path) = some (A.ptr t) := by
  cases path with
  | nil => exact congrArg some h.root
  | cons p path =>
      show (m.node (A.addr p.key)).map (·.child p.side) = some (A.ptr t)
      rw [h.parent, Option.map_some, rbCell_child]

/-- The walk of `spe_task_schedule_timeout` ends at the place where the key belongs. -/
theorem timerWalk_spec (goLeft : Word → Bool) {t : RbTree α} {path : List (Hop α)}
    (h : m.Represents A (plug t path) F) {fuel : Nat} (hfuel : t.height + 1 ≤ fuel) :
    timerWalk goLeft fuel (A.link path) (A.above 0 path) m =
      some (A.link (descend (fun x => goLeft (A.addr x)) t path),
        A.above 0 (descend (fun x => goLeft (A.addr x)) t path)) := by
  induction t generalizing path fuel with
  | nil =>
      obtain ⟨fuel, rfl⟩ := Nat.exists_eq_add_of_le' (Nat.le_of_add_left_le hfuel)
      simp only [timerWalk, h.load, Option.bind_eq_bind, Option.bind_some, ptr_nil, if_true]
      rfl
  | node c l x r ihl ihr =>
      obtain ⟨fuel, rfl⟩ := Nat.exists_eq_add_of_le' (Nat.le_of_add_left_le hfuel)
      rw [RedBlack.Tree.height] at hfuel
      simp only [timerWalk, h.load, Option.bind_eq_bind, Option.bind_some, ptr_node, A.ne_zero,
        if_false]
      rw [descend]
      by_cases hgo : goLeft (A.addr x)
      · rw [if_pos hgo, if_pos hgo]
        have hbelow : m.Represents A (plug l (⟨.left, c, x, r⟩ :: path)) F := h
        exact ihl hbelow (by omega)
      · rw [if_neg hgo, if_neg hgo]
        have hbelow : m.Represents A (plug r (⟨.right, c, x, l⟩ :: path)) F := h
        exact ihr hbelow (by omega)

/-- `rb_link_node` hangs a red leaf at an empty position. -/
theorem rbLinkNode_spec {x : α} {v : RbNode} {path : List (Hop α)}
    (h : m.Represents A (plug .nil path) ({(A.addr x, v)} + F)) :
    ∃ m', rbLinkNode (A.addr x) (A.above 0 path) (A.link path) m = some m' ∧
      m'.Represents A (plug (.node .red .nil x .nil) path) F := by
  obtain ⟨hcells, hroot⟩ := h.focus
  rw [treeCells_nil, zero_add, ptr_nil] at hcells
  rw [ptr_nil] at hroot
  obtain ⟨m₁, hm₁, h₁, hr₁⟩ := modify_spec (hcells.congr (add_left_comm _ _ _))
    (fun r => { r with rbParentColor := A.above 0 path })
  obtain ⟨m₂, hm₂, h₂, hr₂⟩ := modify_spec h₁ (·.setChild .right 0)
  obtain ⟨m₃, hm₃, h₃, hr₃⟩ := modify_spec h₂ (·.setChild .left 0)
  have hleaf : (({ v with rbParentColor := A.above 0 path }.setChild .right 0).setChild .left 0) =
      rbCell .left (A.above 0 path) .red 0 0 := by
    show RbNode.mk (A.above 0 path) 0 0 = RbNode.mk (pack (A.above 0 path) .red) 0 0
    rw [pack, colorBit, or_null]
  rw [hleaf] at h₃
  have hroot₃ : m₃.root = A.top 0 path := by rw [hr₃, hr₂, hr₁, hroot]
  have hnode : treeCells A (A.above 0 path) (.node .red .nil x .nil) =
      {(A.addr x, rbCell .left (A.above 0 path) .red 0 0)} := by
    simp [treeCells_node, treeCells_nil]
  obtain ⟨m', hm', h', hroot'⟩ : ∃ m', m₃.store (A.addr x) (A.link path) = some m' ∧
      Cells.Holds m'.node ({(A.addr x, rbCell .left (A.above 0 path) .red 0 0)} +
        (pathCells A 0 (A.addr x) path + F)) ∧ m'.root = A.top (A.addr x) path := by
    cases path with
    | nil => exact ⟨{ m₃ with root := A.addr x }, rfl, h₃, rfl⟩
    | cons p path =>
        have hparent : Cells.Holds m₃.node
            ({(A.addr p.key, rbCell p.side (A.above 0 path) p.color 0 (A.ptr p.sibling))} +
            ({(A.addr x, rbCell .left (A.addr p.key) .red 0 0)} +
            (treeCells A (A.addr p.key) p.sibling + pathCells A 0 (A.addr p.key) path + F))) :=
          h₃.congr (by rw [pathCells_cons, above_cons]; abel)
        obtain ⟨m', hm', h', hr'⟩ := modify_spec hparent (·.setChild p.side (A.addr x))
        rw [rbCell_setChild] at h'
        refine ⟨m', hm', h'.congr (by rw [pathCells_cons, above_cons]; abel), ?_⟩
        rw [hr', hroot₃]
        rfl
  refine ⟨m', ?_, represents_of_focus (by rw [hnode]; exact h') hroot'⟩
  simp only [rbLinkNode, hm₁, hm₂, hm₃, hm', Option.bind_eq_bind, Option.bind_some]

/-- The addresses of the cells of a tree are those of its keys. -/
theorem mem_treeCells {b a : Word} {t : RbTree α} :
    a ∈ (treeCells A b t).map Prod.fst ↔ ∃ y ∈ t.toList, A.addr y = a := by
  induction t generalizing b with
  | nil => simp [treeCells_nil]
  | node c l x r ihl ihr =>
      simp only [treeCells_node, Multiset.map_add, Multiset.map_singleton, Multiset.mem_add,
        Multiset.mem_singleton, ihl, ihr, RedBlack.Tree.toList_node, List.mem_append, List.mem_cons]
      grind

/-- The tree is in memory, and the nodes of all other keys are cleared. -/
structure RbMem.InMemory (m : RbMem) (A : Addressing α) (t : RbTree α) : Prop where
  tree : m.Represents A t 0
  rest : ∀ x, x ∉ t.toList → m.node (A.addr x) = some (A.cleared x)

/-- The node of a key that is not in the tree, beside the tree. -/
theorem RbMem.InMemory.one {t : RbTree α} {x : α} (h : m.InMemory A t) (hx : x ∉ t.toList) :
    m.Represents A t ({(A.addr x, A.cleared x)} + 0) := by
  refine ⟨?_, h.tree.root⟩
  rw [add_left_comm]
  apply h.tree.cells.join (h.rest x hx)
  rw [add_zero, mem_treeCells]
  rintro ⟨y, hy, heq⟩
  exact hx (A.inj heq ▸ hy)

/-- The nodes of two keys that are not in the tree, beside the tree. -/
theorem RbMem.InMemory.two {t : RbTree α} {x y : α} (h : m.InMemory A t) (hx : x ∉ t.toList)
    (hy : y ∉ t.toList) (hne : x ≠ y) :
    m.Represents A t ({(A.addr x, A.cleared x)} + ({(A.addr y, A.cleared y)} + 0)) := by
  refine ⟨?_, h.tree.root⟩
  rw [add_left_comm]
  apply (h.one hy).cells.join (h.rest x hx)
  simp only [Multiset.map_add, Multiset.mem_add, mem_treeCells, Multiset.map_singleton,
    Multiset.mem_singleton, Multiset.map_zero, Multiset.notMem_zero, or_false]
  rintro (⟨z, hz, heq⟩ | heq)
  · exact hx (A.inj heq ▸ hz)
  · exact hne (A.inj heq)

/-- Cells beside a tree may be left out of account. -/
theorem RbMem.Represents.drop {t : RbTree α} (h : m.Represents A t F) : m.Represents A t 0 :=
  ⟨h.cells.left.congr (add_zero _).symm, h.root⟩

/-- **Initialisation.**  `rb_init_node` of a key that is not in the tree. -/
theorem RbMem.InMemory.clear {t : RbTree α} {x : α} (h : m.InMemory A t) (hx : x ∉ t.toList) :
    ∃ m', rbInitNode (A.addr x) m = some m' ∧ m'.InMemory A t := by
  obtain ⟨m', hm', h'⟩ := rbInitNode_spec (h.one hx)
  refine ⟨m', hm', h'.drop, ?_⟩
  intro y hy
  by_cases hyx : y = x
  · subst hyx
    exact Cells.Holds.read (h'.cells.congr (add_left_comm _ _ _))
  · obtain ⟨n', hn', hother⟩ := rbInitNode_spec (h.two hx hy (Ne.symm hyx))
    obtain rfl : m' = n' := Option.some.inj (hm'.symm.trans hn')
    have hread : Cells.Holds m'.node ({(A.addr y, A.cleared y)} +
        (treeCells A 0 t + {(A.addr x, A.cleared x)})) :=
      hother.cells.congr (by abel)
    exact hread.read

/-- **Arming.**  The walk, `rb_link_node` and `rb_insert_color` put a key into the tree in
memory. -/
theorem RbMem.InMemory.insert {t : RbTree α} {x : α} (goLeft : Word → Bool)
    (h : m.InMemory A t) (ht : t.IsRedBlack) (hx : x ∉ t.toList) {fuel : Nat}
    (hfuel : t.height + 2 ≤ fuel) :
    ∃ new parent m₁ m', timerWalk goLeft fuel .root 0 m = some (new, parent) ∧
      rbLinkNode (A.addr x) parent new m = some m₁ ∧
      rbInsertColor fuel (A.addr x) m₁ = some m' ∧
      m'.InMemory A (RedBlack.insert (fun y => goLeft (A.addr y)) x t) := by
  obtain ⟨path, hpath⟩ : ∃ path, path = descend (fun y => goLeft (A.addr y)) t [] := ⟨_, rfl⟩
  have hplug : plug .nil path = t := by
    rw [hpath, plug_descend]
    rfl
  have hdepth := length_le_height_plug .nil path
  rw [hplug] at hdepth
  have hway : path.length + 2 ≤ fuel := by omega
  have hspec : ∀ F, m.Represents A t ({(A.addr x, A.cleared x)} + F) → ∃ m₁ m',
      rbLinkNode (A.addr x) (A.above 0 path) (A.link path) m = some m₁ ∧
      rbInsertColor fuel (A.addr x) m₁ = some m' ∧
      m'.Represents A (RedBlack.insert (fun y => goLeft (A.addr y)) x t) F := by
    intro F hF
    rw [← hplug] at hF
    obtain ⟨m₁, hm₁, h₁⟩ := rbLinkNode_spec hF
    obtain ⟨n, hfits⟩ := ht.fits
    have hcontext : Context path 0 := hpath ▸ hfits.descend _
    obtain ⟨m', hm', h'⟩ := rbInsertColor_spec (.red x .nil .nil rfl rfl) rfl hcontext h₁ hway
    rw [hpath] at h'
    exact ⟨m₁, m', hm₁, hm', h'⟩
  have hwhole : m.Represents A (plug t []) 0 := h.tree
  have hwalk := timerWalk_spec goLeft hwhole (show t.height + 1 ≤ fuel by omega)
  obtain ⟨m₁, m', hm₁, hm', h'⟩ := hspec 0 (h.one hx)
  refine ⟨_, _, m₁, m', hwalk, by rw [← hpath]; exact hm₁, hm', h', ?_⟩
  intro y hy
  rw [(perm_insert _ x t).mem_iff, List.mem_cons, not_or] at hy
  obtain ⟨n₁, n', hn₁, hn', hother⟩ := hspec _ (h.two hx hy.2 (Ne.symm hy.1))
  obtain rfl : m₁ = n₁ := Option.some.inj (hm₁.symm.trans hn₁)
  obtain rfl : m' = n' := Option.some.inj (hm'.symm.trans hn')
  exact Cells.Holds.read (hother.cells.congr (add_left_comm _ _ _))

variable [DecidableEq α]

/-- **Disarming.**  `rb_erase` and `rb_init_node` take a key out of the tree in memory. -/
theorem RbMem.InMemory.erase {t : RbTree α} {x : α} (h : m.InMemory A t) (ht : t.IsRedBlack)
    (hx : x ∈ t.toList) {fuel : Nat} (hfuel : t.height + 2 ≤ fuel) :
    ∃ m₁ m', rbErase fuel (A.addr x) m = some m₁ ∧ rbInitNode (A.addr x) m₁ = some m' ∧
      m'.InMemory A (erase x t) := by
  have hspec : ∀ F, m.Represents A t F → ∃ m₁ m', rbErase fuel (A.addr x) m = some m₁ ∧
      rbInitNode (A.addr x) m₁ = some m' ∧
      m'.Represents A (RedBlack.erase x t) ({(A.addr x, A.cleared x)} + F) := by
    intro F hF
    obtain ⟨m₁, v, hm₁, h₁⟩ := rbErase_spec hF ht hx hfuel
    obtain ⟨m', hm', h'⟩ := rbInitNode_spec h₁
    exact ⟨m₁, m', hm₁, hm', h'⟩
  obtain ⟨m₁, m', hm₁, hm', h'⟩ := hspec 0 h.tree
  refine ⟨m₁, m', hm₁, hm', h'.drop, ?_⟩
  intro y hy
  by_cases hyx : y = x
  · subst hyx
    exact Cells.Holds.read (h'.cells.congr (add_left_comm _ _ _))
  · rw [toList_erase, List.mem_erase_of_ne hyx] at hy
    obtain ⟨n₁, n', hn₁, hn', hother⟩ := hspec _ (h.one hy)
    obtain rfl : m₁ = n₁ := Option.some.inj (hm₁.symm.trans hn₁)
    obtain rfl : m' = n' := Option.some.inj (hm'.symm.trans hn')
    have hread : Cells.Holds m'.node ({(A.addr y, A.cleared y)} +
        (treeCells A 0 (RedBlack.erase x t) + {(A.addr x, A.cleared x)})) :=
      hother.cells.congr (by abel)
    exact hread.read

end Nodes

end Spe
