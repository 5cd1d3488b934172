import Mathlib.Data.List.Basic

/-!
# Red-black trees with an explicit path to the root

A node of an intrusive red-black tree reaches its ancestors through parent
pointers.  Here a position in the tree is a subtree together with the list of
its ancestors, nearest first (`Hop`), and `plug` walks back to the root.  The
two repair loops, `insertColor` after a node was linked as a red leaf and
`eraseColor` after a black node was unlinked, climb this path.

Balance is not studied.  What every user of such a tree relies on is proved:
both loops keep the in-order sequence of the nodes (`toList_insertColor`,
`toList_eraseColor`), so

* `toList_erase` — erasing removes exactly that node from the sequence;
* `toList_insert` — a descent that goes left below the keys accepted by a
  monotone test links the new node just before the first of them;
* `first_eq_head` — the leftmost node is the head of the sequence.
-/

namespace RedBlack

/-- Node colours. -/
inductive Color
  | red
  | black
  deriving DecidableEq

/-- Binary trees with coloured nodes. -/
inductive Tree (α : Type)
  | nil
  | node (color : Color) (left : Tree α) (key : α) (right : Tree α)

/-- The side of a parent on which a child hangs. -/
inductive Side
  | left
  | right
  deriving DecidableEq

/-- The other side. -/
def Side.other : Side → Side
  | .left => .right
  | .right => .left

variable {α : Type}

/-- The keys in order. -/
def Tree.toList : Tree α → List α
  | .nil => []
  | .node _ l x r => l.toList ++ x :: r.toList

@[simp] theorem Tree.toList_nil : (Tree.nil : Tree α).toList = [] := rfl

@[simp] theorem Tree.toList_node (c : Color) (l : Tree α) (x : α) (r : Tree α) :
    (Tree.node c l x r).toList = l.toList ++ x :: r.toList := rfl

/-- There is no node (`RB_EMPTY_ROOT`). -/
def Tree.isEmpty : Tree α → Bool
  | .nil => true
  | .node _ _ _ _ => false

theorem Tree.isEmpty_iff (t : Tree α) : t.isEmpty ↔ t.toList = [] := by
  cases t <;> simp [Tree.isEmpty]

/-- A missing child counts as black. -/
def Tree.isRed : Tree α → Bool
  | .node .red _ _ _ => true
  | _ => false

/-- Recolour the root. -/
def Tree.paint (c : Color) : Tree α → Tree α
  | .nil => .nil
  | .node _ l x r => .node c l x r

/-- Recolour one child of the root. -/
def Tree.paintChild (s : Side) (c : Color) : Tree α → Tree α
  | .nil => .nil
  | .node d l x r =>
      match s with
      | .left => .node d (l.paint c) x r
      | .right => .node d l x (r.paint c)

/-- The child on a given side. -/
def Tree.child (s : Side) : Tree α → Tree α
  | .nil => .nil
  | .node _ l _ r =>
      match s with
      | .left => l
      | .right => r

/-- The rotation that brings the child on side `s` up to the root; the two
nodes keep their colours.  `left` is a right rotation, `right` a left one. -/
def Tree.rotateUp (s : Side) (t : Tree α) : Tree α :=
  match s, t with
  | .left, .node c (.node d a x b) y r => .node d a x (.node c b y r)
  | .right, .node c l x (.node d a y b) => .node d (.node c l x a) y b
  | _, t => t

@[simp] theorem toList_paint (c : Color) (t : Tree α) :
    (t.paint c).toList = t.toList := by
  cases t <;> rfl

@[simp] theorem toList_paintChild (s : Side) (c : Color) (t : Tree α) :
    (t.paintChild s c).toList = t.toList := by
  cases t with
  | nil => rfl
  | node d l x r => cases s <;> simp [Tree.paintChild]

@[simp] theorem toList_rotateUp (s : Side) (t : Tree α) :
    (t.rotateUp s).toList = t.toList := by
  cases t with
  | nil => cases s <;> rfl
  | node c l x r =>
      cases s with
      | left => cases l <;> simp [Tree.rotateUp]
      | right => cases r <;> simp [Tree.rotateUp]

/-- One ancestor of a position: the side on which the position lies, the
ancestor's colour and key, and its other child. -/
structure Hop (α : Type) where
  side : Side
  color : Color
  key : α
  sibling : Tree α

/-- Put a subtree back under an ancestor. -/
def Hop.attach (h : Hop α) (t : Tree α) : Tree α :=
  match h.side with
  | .left => .node h.color t h.key h.sibling
  | .right => .node h.color h.sibling h.key t

/-- Put a subtree back under all its ancestors, nearest first. -/
def plug : Tree α → List (Hop α) → Tree α
  | t, [] => t
  | t, h :: path => plug (h.attach t) path

/-- The keys before a position, read off its ancestors. -/
def keysBefore : List (Hop α) → List α
  | [] => []
  | h :: path =>
      match h.side with
      | .left => keysBefore path
      | .right => keysBefore path ++ (h.sibling.toList ++ [h.key])

/-- The keys after a position, read off its ancestors. -/
def keysAfter : List (Hop α) → List α
  | [] => []
  | h :: path =>
      match h.side with
      | .left => h.key :: (h.sibling.toList ++ keysAfter path)
      | .right => keysAfter path

/-- The sequence of a plugged position is its surroundings around its own
sequence. -/
theorem toList_plug (t : Tree α) (path : List (Hop α)) :
    (plug t path).toList = keysBefore path ++ (t.toList ++ keysAfter path) := by
  induction path generalizing t with
  | nil => simp [plug, keysBefore, keysAfter]
  | cons h path ih =>
      rw [plug, ih]
      cases hs : h.side <;> simp [Hop.attach, keysBefore, keysAfter, hs]

/-- Only the sequence of a subtree shows in the whole sequence. -/
theorem toList_plug_congr {t u : Tree α} (path : List (Hop α))
    (h : t.toList = u.toList) :
    (plug t path).toList = (plug u path).toList := by
  rw [toList_plug, toList_plug, h]

@[simp] theorem toList_attach_paint (h : Hop α) (c d : Color) (t : Tree α) :
    (({ h with color := c, sibling := h.sibling.paint d } : Hop α).attach t).toList
      = (h.attach t).toList := by
  cases hs : h.side <;> simp [Hop.attach, hs]

@[simp] theorem toList_attach_color (h : Hop α) (c : Color) (t : Tree α) :
    (({ h with color := c } : Hop α).attach t).toList = (h.attach t).toList := by
  cases hs : h.side <;> simp [Hop.attach, hs]

/-- An ancestor shows only the sequence of what hangs below it. -/
theorem toList_attach_congr (h : Hop α) {t u : Tree α} (htu : t.toList = u.toList) :
    (h.attach t).toList = (h.attach u).toList := by
  cases hs : h.side <;> simp [Hop.attach, hs, htu]

/-- The repair loop after an insertion: the position `t` is red, its parent is
the first ancestor.  A red parent with a red uncle is recoloured and the loop
goes on two levels up; with a black uncle one or two rotations end it. -/
def insertColor : Tree α → List (Hop α) → Tree α
  | t, [] => t.paint .black
  | t, [p] => (p.attach t).paint .black
  | t, p :: g :: path =>
      if p.color = .black then
        (plug t (p :: g :: path)).paint .black
      else if g.sibling.isRed then
        insertColor
          (({ g with color := .red, sibling := g.sibling.paint .black } : Hop α).attach
            (({ p with color := .black } : Hop α).attach t)) path
      else
        let inner := if p.side = g.side then p.attach t else (p.attach t).rotateUp p.side
        let turned :=
          (({ g with color := .red } : Hop α).attach (inner.paint .black)).rotateUp g.side
        (plug turned path).paint .black

/-- The repair loop after an insertion keeps the in-order sequence. -/
theorem toList_insertColor (t : Tree α) (path : List (Hop α)) :
    (insertColor t path).toList = (plug t path).toList := by
  induction t, path using insertColor.induct with
  | case1 t => simp [insertColor, plug]
  | case2 t p => simp [insertColor, plug]
  | case3 t p g path hblack => simp [insertColor, hblack]
  | case4 t p g path hred huncle ih =>
      rw [insertColor, if_neg hred, if_pos huncle, ih]
      apply toList_plug_congr
      rw [toList_attach_paint]
      exact toList_attach_congr g (toList_attach_color p _ t)
  | case5 t p g path hred huncle =>
      rw [insertColor, if_neg hred, if_neg huncle, toList_paint]
      apply toList_plug_congr
      rw [toList_rotateUp, toList_attach_color]
      apply toList_attach_congr
      rw [toList_paint]
      split <;> simp

/-- One round of the repair loop after an erasure at a position whose sibling
is black.  `Sum.inl`: the sibling turned red and the loop goes on at the
parent.  `Sum.inr`: rotations settled the matter. -/
def settleSibling (t : Tree α) (p : Hop α) : Tree α ⊕ Tree α :=
  let near := p.side
  let far := p.side.other
  if ¬ (p.sibling.child .left).isRed ∧ ¬ (p.sibling.child .right).isRed then
    .inl (({ p with sibling := p.sibling.paint .red } : Hop α).attach t)
  else
    let turned :=
      if (p.sibling.child far).isRed then p.sibling
      else ((p.sibling.paintChild near .black).paint .red).rotateUp near
    let repainted := (turned.paint p.color).paintChild far .black
    .inr ((({ p with color := .black, sibling := repainted } : Hop α).attach t).rotateUp far)

/-- Replacing the sibling by one with the same sequence does not show. -/
theorem toList_attach_sibling (p : Hop α) (c : Color) (u t : Tree α)
    (h : u.toList = p.sibling.toList) :
    (({ p with color := c, sibling := u } : Hop α).attach t).toList
      = (p.attach t).toList := by
  cases hs : p.side <;> simp [Hop.attach, hs, h]

/-- One round of the erasure repair keeps the in-order sequence. -/
theorem toList_settleSibling (t : Tree α) (p : Hop α) :
    (Sum.elim id id (settleSibling t p)).toList = (p.attach t).toList := by
  unfold settleSibling
  split
  · exact toList_attach_sibling p p.color _ t (toList_paint _ _)
  · simp only [Sum.elim_inr, id_eq, toList_rotateUp]
    apply toList_attach_sibling
    rw [toList_paintChild, toList_paint]
    split <;> simp

/-- The repair loop after the erasure of a black node: the position `t` is one
black node short.  A red sibling is first rotated above the parent, which
turns red, so the loop then ends within one round. -/
def eraseColor : Tree α → List (Hop α) → Tree α
  | t, [] => t.paint .black
  | t, p :: path =>
      if t.isRed then plug (t.paint .black) (p :: path) else
      match p.sibling with
      | .node .red l y r =>
          let inner := if p.side = .left then l else r
          let outer := if p.side = .left then r else l
          let above : Hop α := { p with color := .black, key := y, sibling := outer }
          match settleSibling t { p with color := .red, sibling := inner } with
          | .inl u => plug (u.paint .black) (above :: path)
          | .inr u => (plug u (above :: path)).paint .black
      | _ =>
          match settleSibling t p with
          | .inl u => eraseColor u path
          | .inr u => (plug u path).paint .black

/-- Both outcomes of a round carry the sequence of the position it started
from. -/
theorem toList_of_settleSibling {t u : Tree α} {p : Hop α}
    (h : settleSibling t p = .inl u ∨ settleSibling t p = .inr u) :
    u.toList = (p.attach t).toList := by
  have hkeep := toList_settleSibling t p
  rcases h with h | h <;> simpa [h] using hkeep

/-- Rotating a red sibling above the parent keeps the in-order sequence. -/
theorem toList_sibling_up (t l r : Tree α) (y : α) (c : Color) (p : Hop α)
    (hsib : p.sibling = .node c l y r) :
    (({ p with color := .black, key := y,
               sibling := if p.side = .left then r else l } : Hop α).attach
      (({ p with color := .red,
                 sibling := if p.side = .left then l else r } : Hop α).attach t)).toList
      = (p.attach t).toList := by
  cases hs : p.side <;> simp [Hop.attach, hs, hsib]

/-- The repair loop after an erasure keeps the in-order sequence. -/
theorem toList_eraseColor (t : Tree α) (path : List (Hop α)) :
    (eraseColor t path).toList = (plug t path).toList := by
  induction path generalizing t with
  | nil => simp [eraseColor, plug]
  | cons p path ih =>
      rw [eraseColor]
      split
      · exact toList_plug_congr _ (toList_paint _ _)
      · split
        · rename_i l y r hsib
          have hup := toList_sibling_up t l r y .red p hsib
          dsimp only
          split
          · rename_i u hu
            have hkeep := toList_of_settleSibling (Or.inl hu)
            apply toList_plug_congr path
            rw [← hup]
            exact toList_attach_congr _ ((toList_paint _ _).trans hkeep)
          · rename_i u hu
            have hkeep := toList_of_settleSibling (Or.inr hu)
            rw [toList_paint]
            apply toList_plug_congr path
            rw [← hup]
            exact toList_attach_congr _ hkeep
        · split
          · rename_i u hu
            rw [ih]
            exact toList_plug_congr path (toList_of_settleSibling (Or.inl hu))
          · rename_i u hu
            rw [toList_paint]
            exact toList_plug_congr path (toList_of_settleSibling (Or.inr hu))

/-- The position of the leftmost node: its colour, key, right child and
ancestors. -/
def leftmost : Tree α → List (Hop α) → Option (Color × α × Tree α × List (Hop α))
  | .nil, _ => none
  | .node c l x r, path =>
      match leftmost l (⟨.left, c, x, r⟩ :: path) with
      | some z => some z
      | none => some (c, x, r, path)

/-- The leftmost key of a tree. -/
def first (t : Tree α) : Option α :=
  (leftmost t []).map (fun z => z.2.1)

/-- Only the empty tree has no leftmost node. -/
theorem leftmost_eq_none {t : Tree α} {path : List (Hop α)} :
    leftmost t path = none ↔ t = .nil := by
  cases t with
  | nil => simp [leftmost]
  | node c l x r =>
      rw [leftmost]
      split <;> simp

/-- The leftmost position splits off the first key of the sequence. -/
theorem leftmost_spec {t r : Tree α} {path path' : List (Hop α)} {c : Color} {x : α}
    (h : leftmost t path = some (c, x, r, path')) :
    t.toList ++ keysAfter path = x :: (r.toList ++ keysAfter path') ∧
      keysBefore path' = keysBefore path := by
  induction t generalizing path with
  | nil => simp [leftmost] at h
  | node d l y u ihl _ =>
      rw [leftmost] at h
      split at h
      · rename_i z hz
        obtain rfl := Option.some.inj h
        obtain ⟨hseq, hbefore⟩ := ihl hz
        exact ⟨by simpa [keysAfter] using hseq, by simpa [keysBefore] using hbefore⟩
      · rename_i hnone
        have hnil := leftmost_eq_none.mp hnone
        simp only [Option.some.injEq, Prod.mk.injEq] at h
        obtain ⟨rfl, rfl, rfl, rfl⟩ := h
        simp [hnil]

/-- The leftmost node is the head of the in-order sequence. -/
theorem first_eq_head (t : Tree α) : first t = t.toList.head? := by
  unfold first
  cases h : leftmost t [] with
  | none => simp [leftmost_eq_none.mp h]
  | some z =>
      obtain ⟨c, x, r, path'⟩ := z
      have hseq := (leftmost_spec h).1
      simp only [keysAfter, List.append_nil] at hseq
      simp [hseq]

/-- Follow a left-or-right test down to an empty link. -/
def descend (goLeft : α → Bool) : Tree α → List (Hop α) → List (Hop α)
  | .nil, path => path
  | .node c l x r, path =>
      if goLeft x then descend goLeft l (⟨.left, c, x, r⟩ :: path)
      else descend goLeft r (⟨.right, c, x, l⟩ :: path)

/-- Link a new red leaf where the descent ends and repair the colours. -/
def insert (goLeft : α → Bool) (x : α) (t : Tree α) : Tree α :=
  insertColor (.node .red .nil x .nil) (descend goLeft t [])

/-- Under a test that stays true once it is true, the descent splits the
sequence at the first key that passes. -/
theorem descend_spec {goLeft : α → Bool} {t : Tree α} (path : List (Hop α))
    (hmono : t.toList.Pairwise (fun a b => goLeft a → goLeft b)) :
    ∃ pre post, t.toList = pre ++ post ∧
      (∀ a ∈ pre, ¬ goLeft a) ∧ (∀ b ∈ post, goLeft b) ∧
      keysBefore (descend goLeft t path) = keysBefore path ++ pre ∧
      keysAfter (descend goLeft t path) = post ++ keysAfter path := by
  induction t generalizing path with
  | nil => exact ⟨[], [], by simp [descend]⟩
  | node c l x r ihl ihr =>
      rw [Tree.toList_node, List.pairwise_append, List.pairwise_cons] at hmono
      obtain ⟨hl, ⟨hxr, hr⟩, hlx⟩ := hmono
      rw [descend]
      by_cases hx : goLeft x
      · obtain ⟨pre, post, hsplit, hpre, hpost, hb, ha⟩ := ihl (⟨.left, c, x, r⟩ :: path) hl
        refine ⟨pre, post ++ x :: r.toList, by simp [hsplit], hpre, ?_, ?_, ?_⟩
        · intro b hmem
          rcases List.mem_append.mp hmem with hmem | hmem
          · exact hpost b hmem
          · rcases List.mem_cons.mp hmem with rfl | hmem
            · exact hx
            · exact hxr b hmem hx
        · rw [if_pos hx, hb, keysBefore]
        · rw [if_pos hx, ha, keysAfter]
          simp
      · obtain ⟨pre, post, hsplit, hpre, hpost, hb, ha⟩ := ihr (⟨.right, c, x, l⟩ :: path) hr
        refine ⟨l.toList ++ x :: pre, post, by simp [hsplit], ?_, hpost, ?_, ?_⟩
        · intro a hmem hgo
          rcases List.mem_append.mp hmem with hmem | hmem
          · exact hx (hlx a hmem x (by simp) hgo)
          · rcases List.mem_cons.mp hmem with rfl | hmem
            · exact hx hgo
            · exact hpre a hmem hgo
        · rw [if_neg hx, hb, keysBefore]
          simp
        · rw [if_neg hx, ha, keysAfter]

/-- Insertion puts the new key just before the first key that passes the
test. -/
theorem toList_insert {goLeft : α → Bool} {t : Tree α} (x : α)
    (hmono : t.toList.Pairwise (fun a b => goLeft a → goLeft b)) :
    ∃ pre post, t.toList = pre ++ post ∧
      (∀ a ∈ pre, ¬ goLeft a) ∧ (∀ b ∈ post, goLeft b) ∧
      (insert goLeft x t).toList = pre ++ x :: post := by
  obtain ⟨pre, post, hsplit, hpre, hpost, hb, ha⟩ := descend_spec [] hmono
  refine ⟨pre, post, hsplit, hpre, hpost, ?_⟩
  rw [insert, toList_insertColor, toList_plug, hb, ha]
  simp [keysBefore, keysAfter]

/-- Whatever the test, insertion adds one occurrence of the new key and keeps
the others. -/
theorem perm_insert (goLeft : α → Bool) (x : α) (t : Tree α) :
    (insert goLeft x t).toList.Perm (x :: t.toList) := by
  have hdescend : ∀ (t : Tree α) (path : List (Hop α)),
      (keysBefore (descend goLeft t path) ++ keysAfter (descend goLeft t path)).Perm
        (keysBefore path ++ (t.toList ++ keysAfter path)) := by
    intro t
    induction t with
    | nil => intro path; simp [descend]
    | node c l y r ihl ihr =>
        intro path
        rw [descend]
        split
        · apply (ihl _).trans
          simp [keysBefore, keysAfter]
        · apply (ihr _).trans
          simp [keysBefore, keysAfter]
  rw [insert, toList_insertColor, toList_plug]
  simp only [Tree.toList_node, Tree.toList_nil, List.nil_append, List.cons_append]
  refine List.perm_middle.trans (List.Perm.cons x ?_)
  simpa [keysBefore, keysAfter] using hdescend t []

/-- The keys before a position whose path is the concatenation of two. -/
theorem keysBefore_append (below path : List (Hop α)) :
    keysBefore (below ++ path) = keysBefore path ++ keysBefore below := by
  induction below with
  | nil => simp [keysBefore]
  | cons h below ih => cases hs : h.side <;> simp [keysBefore, hs, ih]

/-- The keys after a position whose path is the concatenation of two. -/
theorem keysAfter_append (below path : List (Hop α)) :
    keysAfter (below ++ path) = keysAfter below ++ keysAfter path := by
  induction below with
  | nil => simp [keysAfter]
  | cons h below ih => cases hs : h.side <;> simp [keysAfter, hs, ih]

/-- Unlinking a position leaves its surroundings around its one child. -/
theorem toList_unlink (c : Color) (child : Tree α) (path : List (Hop α)) :
    (if c = .black then eraseColor child path else plug child path).toList
      = keysBefore path ++ (child.toList ++ keysAfter path) := by
  split
  · rw [toList_eraseColor, toList_plug]
  · rw [toList_plug]

variable [DecidableEq α]

/-- The position of a node in the tree, found in order: its colour, its two
children and its ancestors. -/
def locate (x : α) : Tree α → List (Hop α) →
    Option (Color × Tree α × Tree α × List (Hop α))
  | .nil, _ => none
  | .node c l y r, path =>
      match locate x l (⟨.left, c, y, r⟩ :: path) with
      | some z => some z
      | none =>
          if y = x then some (c, l, r, path)
          else locate x r (⟨.right, c, y, l⟩ :: path)

/-- A key that does not occur has no position. -/
theorem locate_eq_none {x : α} {t : Tree α} {path : List (Hop α)} :
    locate x t path = none ↔ x ∉ t.toList := by
  induction t generalizing path with
  | nil => simp [locate]
  | node c l y r ihl ihr =>
      rw [locate]
      split
      · rename_i z hz
        have hl : x ∈ l.toList := by
          by_contra hnot
          rw [ihl.mpr hnot] at hz
          simp at hz
        simp [hl]
      · rename_i hnone
        have hl := ihl.mp hnone
        by_cases hy : y = x
        · simp [hy]
        · simp [hy, hl, ihr, Ne.symm hy]

/-- The position found is that of the first occurrence of the key. -/
theorem locate_spec {x : α} {t l r : Tree α} {path path' : List (Hop α)} {c : Color}
    (h : locate x t path = some (c, l, r, path')) :
    ∃ pre post, t.toList = pre ++ x :: post ∧ x ∉ pre ∧
      keysBefore path' ++ l.toList = keysBefore path ++ pre ∧
      r.toList ++ keysAfter path' = post ++ keysAfter path := by
  induction t generalizing path with
  | nil => simp [locate] at h
  | node d a y b iha ihb =>
      rw [locate] at h
      split at h
      · rename_i z hz
        obtain rfl := Option.some.inj h
        obtain ⟨pre, post, hsplit, hpre, hb, ha⟩ := iha hz
        refine ⟨pre, post ++ y :: b.toList, by simp [hsplit], hpre, ?_, ?_⟩
        · simpa [keysBefore] using hb
        · simpa [keysAfter] using ha
      · rename_i hnone
        have hleft := locate_eq_none.mp hnone
        by_cases hy : y = x
        · rw [if_pos hy] at h
          simp only [Option.some.injEq, Prod.mk.injEq] at h
          obtain ⟨rfl, rfl, rfl, rfl⟩ := h
          exact ⟨a.toList, b.toList, by simp [hy], hleft, rfl, rfl⟩
        · rw [if_neg hy] at h
          obtain ⟨pre, post, hsplit, hpre, hb, ha⟩ := ihb h
          refine ⟨a.toList ++ y :: pre, post, by simp [hsplit], ?_, ?_, ?_⟩
          · simp [hleft, hpre, Ne.symm hy]
          · simpa [keysBefore] using hb
          · simpa [keysAfter] using ha

/-- Unlink the node with key `x` and repair the colours.  A node with two
children is replaced by its in-order successor, whose old place is unlinked
instead. -/
def erase (x : α) (t : Tree α) : Tree α :=
  let unlink := fun (c : Color) (child : Tree α) (path : List (Hop α)) =>
    if c = .black then eraseColor child path else plug child path
  match locate x t [] with
  | none => t
  | some (c, .nil, r, path) => unlink c r path
  | some (c, l, .nil, path) => unlink c l path
  | some (c, l, r, path) =>
      match leftmost r [] with
      | none => t
      | some (c', y, child, below) => unlink c' child (below ++ ⟨.right, c, y, l⟩ :: path)

/-- Erasing a key removes its first occurrence from the sequence and nothing
else. -/
theorem toList_erase (x : α) (t : Tree α) :
    (erase x t).toList = t.toList.erase x := by
  unfold erase
  split
  · rename_i hnone
    rw [List.erase_of_not_mem (locate_eq_none.mp hnone)]
  all_goals
    rename_i hsome
    obtain ⟨pre, post, hsplit, hpre, hb, ha⟩ := locate_spec hsome
    rw [hsplit, List.erase_append_right _ hpre, List.erase_cons_head]
    simp only [keysBefore, keysAfter, List.nil_append, List.append_nil] at hb ha
  · rw [toList_unlink, ← hb, ← ha]
    simp
  · rw [toList_unlink, ← hb, ← ha]
    simp
  · split
    · rename_i hempty
      have hnil := leftmost_eq_none.mp hempty
      contradiction
    · rename_i hleft
      obtain ⟨hseq, hbelow⟩ := leftmost_spec hleft
      simp only [keysBefore, keysAfter, List.append_nil] at hseq hbelow
      rw [toList_unlink, keysBefore_append, keysAfter_append, hbelow, ← hb, ← ha, hseq]
      simp [keysBefore, keysAfter]

end RedBlack
