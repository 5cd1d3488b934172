import Mathlib.Algebra.Group.Nat.Defs
import Mathlib.Data.Nat.Basic
import Spe.RedBlackTree

/-!
# Balance of red-black trees

`Balanced t n` says that no red node of `t` has a red child and that every way down
passes `n` black nodes.  A position keeps a promise to its ancestors: they expect a
certain black height below (`Context`), and a red node there only under a black one
(`blackAbove`).

The two repair loops start where this promise is broken in one respect.  After an
insertion a red node may hang under a red one, after an erasure the position may be one
black node short (`Short`).  Each round either restores the promise or breaks it in the
same respect further up, so insertion and erasure keep a tree red-black
(`IsRedBlack.insert`, `IsRedBlack.erase`), and its height stays logarithmic
(`IsRedBlack.height_le`).
-/

namespace RedBlack

variable {α : Type}

/-- No red node has a red child, and every way down passes `n` black nodes. -/
inductive Balanced : Tree α → Nat → Prop
  | nil : Balanced .nil 0
  | red {l r : Tree α} {n : Nat} (x : α) (hl : Balanced l n) (hr : Balanced r n)
      (hlb : l.isRed = false) (hrb : r.isRed = false) : Balanced (.node .red l x r) n
  | black {l r : Tree α} {n : Nat} (x : α) (hl : Balanced l n) (hr : Balanced r n) :
      Balanced (.node .black l x r) (n + 1)

/-- A balanced tree with a black root. -/
def Tree.IsRedBlack (t : Tree α) : Prop := t.isRed = false ∧ ∃ n, Balanced t n

@[simp] theorem side_other_other (s : Side) : s.other.other = s := by
  cases s <;> rfl

@[simp] theorem isRed_nil : (Tree.nil : Tree α).isRed = false := rfl

@[simp] theorem isRed_node_red (l r : Tree α) (x : α) : (Tree.node .red l x r).isRed = true := rfl

@[simp] theorem isRed_node_black (l r : Tree α) (x : α) :
    (Tree.node .black l x r).isRed = false := rfl

@[simp] theorem isRed_paint_black (t : Tree α) : (t.paint .black).isRed = false := by
  cases t <;> rfl

/-- A black tree of positive height is a black node. -/
theorem Balanced.cases_black {t : Tree α} {n : Nat} (h : Balanced t (n + 1))
    (hb : t.isRed = false) :
    ∃ l x r, t = .node .black l x r ∧ Balanced l n ∧ Balanced r n := by
  cases h with
  | red x hl hr _ _ => simp at hb
  | black x hl hr => exact ⟨_, _, _, rfl, hl, hr⟩

/-- A red tree is a red node over two black ones. -/
theorem Balanced.cases_red {t : Tree α} {n : Nat} (h : Balanced t n) (hr : t.isRed = true) :
    ∃ l x r, t = .node .red l x r ∧ Balanced l n ∧ Balanced r n ∧
      l.isRed = false ∧ r.isRed = false := by
  cases h with
  | nil => simp at hr
  | red x hl hr hlb hrb => exact ⟨_, _, _, rfl, hl, hr, hlb, hrb⟩
  | black x _ _ => simp at hr

/-- A red root may be painted black. -/
theorem Balanced.paint_red {t : Tree α} {n : Nat} (h : Balanced t n) (hr : t.isRed = true) :
    Balanced (t.paint .black) (n + 1) := by
  obtain ⟨l, x, r, rfl, hl, hr, _, _⟩ := h.cases_red hr
  exact .black x hl hr

/-- Whatever its root, a balanced tree may be painted black. -/
theorem Balanced.paint_black {t : Tree α} {n : Nat} (h : Balanced t n) :
    ∃ k, Balanced (t.paint .black) k := by
  cases h with
  | nil => exact ⟨0, .nil⟩
  | red x hl hr _ _ => exact ⟨_, .black x hl hr⟩
  | black x hl hr => exact ⟨_, .black x hl hr⟩

/-- Painting the root black makes a balanced tree red-black. -/
theorem Balanced.isRedBlack {t : Tree α} {n : Nat} (h : Balanced t n) :
    (t.paint .black).IsRedBlack :=
  ⟨isRed_paint_black t, h.paint_black⟩

/-- A black root stays black. -/
theorem Tree.IsRedBlack.paint {t : Tree α} (h : t.IsRedBlack) : (t.paint .black).IsRedBlack :=
  h.2.elim fun _ hn => hn.isRedBlack

/-! ## Height -/

/-- The length of the longest way down. -/
def Tree.height : Tree α → Nat
  | .nil => 0
  | .node _ l _ r => max l.height r.height + 1

/-- At least half of the nodes on a way down are black. -/
theorem Balanced.height_le {t : Tree α} {n : Nat} (h : Balanced t n) :
    t.height ≤ if t.isRed then 2 * n + 1 else 2 * n := by
  induction h with
  | nil => simp [Tree.height]
  | red x _ _ hlb hrb ihl ihr =>
      simp only [hlb, hrb, Bool.false_eq_true, if_false] at ihl ihr
      simp only [Tree.height, isRed_node_red, if_true]
      omega
  | black x _ _ ihl ihr =>
      simp only [Tree.height, isRed_node_black, Bool.false_eq_true, if_false]
      split at ihl <;> split at ihr <;> omega

/-- The black nodes alone make a full tree. -/
theorem Balanced.le_length {t : Tree α} {n : Nat} (h : Balanced t n) :
    2 ^ n ≤ t.toList.length + 1 := by
  induction h with
  | nil => simp
  | red x _ _ _ _ ihl ihr =>
      simp only [Tree.toList_node, List.length_append, List.length_cons]
      omega
  | black x _ _ ihl ihr =>
      simp only [Tree.toList_node, List.length_append, List.length_cons, Nat.pow_succ]
      omega

/-- The height of a red-black tree is logarithmic in the number of its keys. -/
theorem Tree.IsRedBlack.height_le {t : Tree α} (h : t.IsRedBlack) :
    t.height ≤ 2 * (t.toList.length + 1).log2 := by
  obtain ⟨hblack, n, hbal⟩ := h
  have hheight := hbal.height_le
  rw [hblack, if_neg Bool.false_ne_true] at hheight
  have hlog : n ≤ (t.toList.length + 1).log2 :=
    (Nat.le_log2 (Nat.succ_ne_zero _)).mpr hbal.le_length
  omega

/-! ## Positions -/

/-- The nearest ancestor is there and is black. -/
def blackAbove : List (Hop α) → Prop
  | [] => False
  | h :: _ => h.color = .black

/-- The ancestors expect a subtree of black height `n`. -/
inductive Context : List (Hop α) → Nat → Prop
  | root (n : Nat) : Context [] n
  | black {h : Hop α} {path : List (Hop α)} {n : Nat} (hcolor : h.color = .black)
      (hs : Balanced h.sibling n) (rest : Context path (n + 1)) : Context (h :: path) n
  | red {h : Hop α} {path : List (Hop α)} {n : Nat} (hcolor : h.color = .red)
      (hs : Balanced h.sibling n) (hsb : h.sibling.isRed = false)
      (habove : blackAbove path) (rest : Context path n) : Context (h :: path) n

/-- A subtree keeps its promise to its ancestors. -/
structure Fits (t : Tree α) (path : List (Hop α)) (n : Nat) : Prop where
  balanced : Balanced t n
  context : Context path n
  above : t.isRed = true → blackAbove path

theorem attach_ne_nil (h : Hop α) (t : Tree α) : h.attach t ≠ .nil := by
  unfold Hop.attach
  cases h.side <;> simp

/-- A node, seen as the ancestor of one of its children. -/
theorem attach_child (s : Side) (c : Color) (l r : Tree α) (x : α) :
    (Hop.mk s c x ((Tree.node c l x r).child s.other)).attach ((Tree.node c l x r).child s) =
      .node c l x r := by
  cases s <;> rfl

/-- Under a black ancestor the subtree may have either colour. -/
theorem Balanced.attach_black {t : Tree α} {h : Hop α} {n : Nat} (ht : Balanced t n)
    (hs : Balanced h.sibling n) (hcolor : h.color = .black) :
    Balanced (h.attach t) (n + 1) ∧ (h.attach t).isRed = false := by
  unfold Hop.attach
  rw [hcolor]
  cases h.side with
  | left => exact ⟨.black _ ht hs, rfl⟩
  | right => exact ⟨.black _ hs ht, rfl⟩

/-- Under a red ancestor the subtree and its sibling have to be black. -/
theorem Balanced.attach_red {t : Tree α} {h : Hop α} {n : Nat} (ht : Balanced t n)
    (hs : Balanced h.sibling n) (htb : t.isRed = false) (hsb : h.sibling.isRed = false)
    (hcolor : h.color = .red) : Balanced (h.attach t) n := by
  unfold Hop.attach
  rw [hcolor]
  cases h.side with
  | left => exact .red _ ht hs htb hsb
  | right => exact .red _ hs ht hsb htb

/-- Only a black subtree fits under a red ancestor. -/
theorem Fits.black_of_red {t : Tree α} {p : Hop α} {path : List (Hop α)} {n : Nat}
    (h : Fits t (p :: path) n) (hcolor : p.color = .red) : t.isRed = false := by
  by_contra hred
  have habove : p.color = .black := h.above (by simpa using hred)
  rw [hcolor] at habove
  exact Color.noConfusion habove

theorem plug_ne_nil {t : Tree α} (ht : t ≠ .nil) (path : List (Hop α)) : plug t path ≠ .nil := by
  induction path generalizing t with
  | nil => exact ht
  | cons p path ih => exact ih (attach_ne_nil p t)

theorem plug_cons_ne_nil (t : Tree α) (p : Hop α) (path : List (Hop α)) :
    plug t (p :: path) ≠ .nil := plug_ne_nil (attach_ne_nil p t) path

/-- The tree around a subtree that fits is red-black. -/
theorem Fits.isRedBlack {t : Tree α} {path : List (Hop α)} {n : Nat} (h : Fits t path n) :
    (plug t path).IsRedBlack := by
  induction path generalizing t n with
  | nil =>
      have hblack : t.isRed = false := by
        by_contra hred
        exact h.above (by simpa using hred)
      exact ⟨hblack, n, h.balanced⟩
  | cons p path ih =>
      rw [plug]
      cases h.context with
      | black hcolor hs rest =>
          obtain ⟨hbal, hblack⟩ := h.balanced.attach_black hs hcolor
          exact ih ⟨hbal, rest, by simp [hblack]⟩
      | red hcolor hs hsb habove rest =>
          have hbal := h.balanced.attach_red hs (h.black_of_red hcolor) hsb hcolor
          exact ih ⟨hbal, rest, fun _ => habove⟩

/-- The whole of a red-black tree fits below no ancestor. -/
theorem Tree.IsRedBlack.fits {t : Tree α} (h : t.IsRedBlack) : ∃ n, Fits t [] n := by
  obtain ⟨hblack, n, hbal⟩ := h
  exact ⟨n, hbal, .root n, by simp [hblack]⟩

/-- The children of a subtree that fits, each with its ancestors, fit. -/
theorem Fits.children {c : Color} {l r : Tree α} {x : α} {path : List (Hop α)} {n : Nat}
    (h : Fits (.node c l x r) path n) :
    ∃ k, Fits l (⟨.left, c, x, r⟩ :: path) k ∧ Fits r (⟨.right, c, x, l⟩ :: path) k := by
  have habove := h.above
  have hcontext := h.context
  cases h.balanced with
  | red x hl hr hlb hrb =>
      refine ⟨n, ⟨hl, .red rfl hr hrb (habove rfl) hcontext, by simp [hlb]⟩, ?_⟩
      exact ⟨hr, .red rfl hl hlb (habove rfl) hcontext, by simp [hrb]⟩
  | black x hl hr =>
      refine ⟨_, ⟨hl, .black rfl hr hcontext, fun _ => rfl⟩, ?_⟩
      exact ⟨hr, .black rfl hl hcontext, fun _ => rfl⟩

/-! ## Insertion -/

/-- A rotation at a black grandparent settles a red node under a red parent. -/
theorem Balanced.turn {t : Tree α} {p g : Hop α} {n : Nat}
    (ht : Balanced t n) (hred : t.isRed = true) (hp : p.color = .red)
    (hsib : Balanced p.sibling n) (hsb : p.sibling.isRed = false)
    (huncle : Balanced g.sibling n) (hub : g.sibling.isRed = false) :
    let inner := if p.side = g.side then p.attach t else (p.attach t).rotateUp p.side
    let turned :=
      (({ g with color := .red } : Hop α).attach (inner.paint .black)).rotateUp g.side
    Balanced turned (n + 1) ∧ turned.isRed = false := by
  obtain ⟨l, x, r, rfl, hl, hr, hlb, hrb⟩ := ht.cases_red hred
  obtain ⟨side, color, key, sibling⟩ := p
  obtain ⟨gside, gcolor, gkey, uncle⟩ := g
  simp only at hp hsib hsb huncle hub
  subst hp
  -- the middle one of the three keys becomes the root, black over two red nodes
  cases side with
  | left =>
      cases gside with
      | left => exact ⟨.black _ (.red _ hl hr hlb hrb) (.red _ hsib huncle hsb hub), rfl⟩
      | right => exact ⟨.black _ (.red _ huncle hl hub hlb) (.red _ hr hsib hrb hsb), rfl⟩
  | right =>
      cases gside with
      | left => exact ⟨.black _ (.red _ hsib hl hsb hlb) (.red _ hr huncle hrb hub), rfl⟩
      | right => exact ⟨.black _ (.red _ huncle hsib hub hsb) (.red _ hl hr hlb hrb), rfl⟩

/-- Two red nodes under a red uncle: the grandparent turns red over two black nodes. -/
theorem Context.recolor {t : Tree α} {p g : Hop α} {path : List (Hop α)} {n : Nat}
    (hpath : Context (p :: g :: path) n) (ht : Balanced t n) (hp : p.color ≠ .black)
    (huncle : g.sibling.isRed = true) :
    let u := ({ g with color := .red, sibling := g.sibling.paint .black } : Hop α).attach
      (({ p with color := .black } : Hop α).attach t)
    Balanced u (n + 1) ∧ u.isRed = true ∧ Context path (n + 1) := by
  cases hpath with
  | black hcolor _ _ => exact absurd hcolor hp
  | red _ hs _ habove rest =>
      cases rest with
      | red hcolor _ _ _ _ => exact absurd (hcolor.symm.trans habove) Color.noConfusion
      | black hcolor hg rest =>
          obtain ⟨hparent, hpb⟩ :=
            Balanced.attach_black (h := { p with color := .black }) ht hs rfl
          have hgp := Balanced.attach_red
            (h := { g with color := .red, sibling := g.sibling.paint .black })
            hparent (hg.paint_red huncle) hpb (isRed_paint_black _) rfl
          refine ⟨hgp, ?_, rest⟩
          unfold Hop.attach
          cases g.side <;> rfl

/-- The repair loop after an insertion ends in a red-black tree, wherever it is
started at a red node of the expected height. -/
theorem insertColor_isRedBlack {t : Tree α} {path : List (Hop α)} {n : Nat}
    (ht : Balanced t n) (hred : t.isRed = true) (hpath : Context path n) :
    (insertColor t path).IsRedBlack := by
  induction t, path using insertColor.induct generalizing n with
  | case1 t => exact ht.isRedBlack
  | case2 t p =>
      rw [insertColor]
      cases hpath with
      | black hcolor hs _ => exact (ht.attach_black hs hcolor).1.isRedBlack
      | red _ _ _ habove _ => exact habove.elim
  | case3 t p g path hblack =>
      rw [insertColor, if_pos hblack]
      exact (Fits.isRedBlack ⟨ht, hpath, fun _ => hblack⟩).paint
  | case4 t p g path hp huncle ih =>
      rw [insertColor, if_neg hp, if_pos huncle]
      obtain ⟨hbal, hisRed, hrest⟩ := hpath.recolor ht hp huncle
      exact ih hbal hisRed hrest
  | case5 t p g path hp huncle =>
      rw [insertColor, if_neg hp, if_neg huncle]
      cases hpath with
      | black hcolor _ _ => exact absurd hcolor hp
      | red hcolor hs hsb habove rest =>
          cases rest with
          | red hcolor _ _ _ _ => exact absurd (hcolor.symm.trans habove) Color.noConfusion
          | black hg huncle' rest =>
              obtain ⟨hturned, hblack⟩ :=
                ht.turn hred hcolor hs hsb huncle' (by simpa using huncle)
              exact (Fits.isRedBlack ⟨hturned, rest, by simp [hblack]⟩).paint

/-- A descent from a subtree that fits ends at a place for a leaf. -/
theorem Fits.descend {t : Tree α} {path : List (Hop α)} {n : Nat} (h : Fits t path n)
    (goLeft : α → Bool) : Context (descend goLeft t path) 0 := by
  induction t generalizing path n with
  | nil =>
      cases h.balanced
      exact h.context
  | node c l x r ihl ihr =>
      obtain ⟨k, hl, hr⟩ := h.children
      rw [RedBlack.descend]
      split
      · exact ihl hl
      · exact ihr hr

/-- Insertion keeps a tree red-black. -/
theorem Tree.IsRedBlack.insert {t : Tree α} (h : t.IsRedBlack) (goLeft : α → Bool) (x : α) :
    (insert goLeft x t).IsRedBlack := by
  obtain ⟨n, hfits⟩ := h.fits
  have hleaf : Balanced (.node .red .nil x .nil) 0 := .red x .nil .nil rfl rfl
  exact insertColor_isRedBlack hleaf rfl (hfits.descend goLeft)

/-! ## Erasure -/

/-- The subtree is one black node short of height `n + 1`, or a red root hides one. -/
def Short (t : Tree α) (n : Nat) : Prop :=
  if t.isRed then Balanced (t.paint .black) (n + 1) else Balanced t n

/-- Below a black node that goes away, the subtree is short. -/
theorem Balanced.short {t : Tree α} {n : Nat} (h : Balanced t n) : Short t n := by
  unfold Short
  split
  · rename_i hred
    exact h.paint_red hred
  · exact h

/-- The height that ancestors of a node expect, from the height below it. -/
def heightAt (c : Color) (n : Nat) : Nat := if c = .black then n + 1 else n

/-- A node over two balanced trees, red only over black ones. -/
theorem Balanced.node {l r : Tree α} {n : Nat} (c : Color) (x : α) (hl : Balanced l n)
    (hr : Balanced r n) (hb : c = .red → l.isRed = false ∧ r.isRed = false) :
    Balanced (.node c l x r) (heightAt c n) ∧ ((Tree.node c l x r).isRed = true ↔ c = .red) := by
  cases c with
  | red => exact ⟨.red x hl hr (hb rfl).1 (hb rfl).2, by simp⟩
  | black => exact ⟨.black x hl hr, by simp⟩

/-- **One round of the repair after an erasure.**  Either both sides of the parent are
one black node short now, or the subtree of the parent has the height and the colour that
it had before the erasure. -/
theorem settleSibling_spec {t : Tree α} {p : Hop α} {n : Nat} (ht : Balanced t n)
    (hs : Balanced p.sibling (n + 1)) (hsb : p.sibling.isRed = false) :
    match settleSibling t p with
    | .inl u => Balanced (u.paint .black) (n + 1) ∧ (u.isRed = true ↔ p.color = .red)
    | .inr u => Balanced u (heightAt p.color (n + 1)) ∧ (u.isRed = true ↔ p.color = .red) := by
  obtain ⟨l, y, r, hsib, hl, hr⟩ := hs.cases_black hsb
  obtain ⟨side, color, key, sibling⟩ := p
  simp only at hsib
  subst hsib
  by_cases hboth : ¬ l.isRed ∧ ¬ r.isRed
  · have hlb : l.isRed = false := by simpa using hboth.1
    have hrb : r.isRed = false := by simpa using hboth.2
    have hred : Balanced (.node .red l y r) n := .red y hl hr hlb hrb
    rw [settleSibling, if_pos (by exact hboth)]
    cases side with
    | left => exact ⟨.black key ht hred, by cases color <;> simp [Hop.attach]⟩
    | right => exact ⟨.black key hred ht, by cases color <;> simp [Hop.attach]⟩
  · rw [settleSibling, if_neg (by exact hboth)]
    cases side with
    | left =>
        cases hr' : r.isRed with
        | true =>
            -- the far nephew is red: one rotation, and it turns black
            have hfar := hr.paint_red hr'
            simpa [Side.other, Tree.child, hr', Tree.paint, Tree.paintChild, Hop.attach,
              Tree.rotateUp] using
              Balanced.node color y (.black key ht hl) hfar (by simp)
        | false =>
            have hl' : l.isRed = true := by simpa [hr'] using hboth
            obtain ⟨a, z, b, rfl, ha, hb, hab, hbb⟩ := hl.cases_red hl'
            simpa [Side.other, Tree.child, hr', Tree.paint, Tree.paintChild, Hop.attach,
              Tree.rotateUp] using
              Balanced.node color z (.black key ht ha) (.black y hb hr) (by simp)
    | right =>
        cases hl' : l.isRed with
        | true =>
            have hfar := hl.paint_red hl'
            simpa [Side.other, Tree.child, hl', Tree.paint, Tree.paintChild, Hop.attach,
              Tree.rotateUp] using
              Balanced.node color y hfar (.black key hr ht) (by simp)
        | false =>
            have hr' : r.isRed = true := by simpa [hl'] using hboth
            obtain ⟨a, z, b, rfl, ha, hb, hab, hbb⟩ := hr.cases_red hr'
            simpa [Side.other, Tree.child, hl', Tree.paint, Tree.paintChild, Hop.attach,
              Tree.rotateUp] using
              Balanced.node color z (.black y hl ha) (.black key hb ht) (by simp)

/-- What the ancestors of a parent expect. -/
theorem Context.parent {p : Hop α} {path : List (Hop α)} {n : Nat}
    (h : Context (p :: path) n) :
    Balanced p.sibling n ∧ Context path (heightAt p.color n) ∧
      (p.color = .red → p.sibling.isRed = false ∧ blackAbove path) := by
  cases h with
  | black hcolor hs rest =>
      refine ⟨hs, by simpa [heightAt, hcolor] using rest, ?_⟩
      intro hred
      rw [hcolor] at hred
      exact Color.noConfusion hred
  | red hcolor hs hsb habove rest =>
      exact ⟨hs, by simpa [heightAt, hcolor] using rest, fun _ => ⟨hsb, habove⟩⟩

/-- After a round, a parent that turned short is short of what its ancestors expect. -/
theorem short_of_round {u : Tree α} {c : Color} {n : Nat}
    (hbal : Balanced (u.paint .black) (n + 1)) (hcolor : u.isRed = true ↔ c = .red) :
    ∃ k, heightAt c (n + 1) = k + 1 ∧ Short u k := by
  cases c with
  | red => exact ⟨n, rfl, by simpa [Short, hcolor.mpr rfl] using hbal⟩
  | black =>
      have hblack : u.isRed = false := by simpa using hcolor
      refine ⟨n + 1, rfl, ?_⟩
      rw [Short, hblack, if_neg Bool.false_ne_true]
      cases u with
      | nil => exact hbal
      | node c l x r =>
          cases c with
          | red => simp at hblack
          | black => exact hbal

/-- The repair loop after an erasure ends in a red-black tree, wherever it is started at
a subtree that is one black node short. -/
theorem eraseColor_isRedBlack {t : Tree α} {path : List (Hop α)} {n : Nat} (ht : Short t n)
    (hpath : Context path (n + 1)) : (eraseColor t path).IsRedBlack := by
  induction path generalizing t n with
  | nil =>
      rw [eraseColor]
      unfold Short at ht
      split at ht
      · exact ⟨isRed_paint_black t, _, ht⟩
      · exact ht.isRedBlack
  | cons p path ih =>
      rw [eraseColor]
      unfold Short at ht
      cases htb : t.isRed with
      | true =>
          rw [if_pos rfl]
          exact Fits.isRedBlack ⟨by simpa [htb] using ht, hpath, by simp⟩
      | false =>
          rw [if_neg Bool.false_ne_true]
          rw [htb, if_neg Bool.false_ne_true] at ht
          obtain ⟨hs, hrest, hred⟩ := hpath.parent
          split
          · -- a red sibling: the parent is black, and the new sibling is a black nephew
            rename_i l y r hsib
            rw [hsib] at hs hred
            cases hs with
            | red _ hl hr hlb hrb =>
                have hblack : p.color = .black := by
                  cases hc : p.color with
                  | black => rfl
                  | red => simpa using (hred hc).1
                rw [hblack, heightAt, if_pos rfl] at hrest
                have hround := settleSibling_spec (p := { p with
                  color := .red, sibling := if p.side = .left then l else r }) ht
                  (by dsimp only; split <;> assumption) (by dsimp only; split <;> assumption)
                have hcontext : Context ({ p with
                    color := .black, key := y,
                    sibling := if p.side = .left then r else l } :: path) (n + 1) :=
                  .black rfl (by dsimp only; split <;> assumption) hrest
                dsimp only
                split
                · rename_i u hu
                  rw [hu] at hround
                  exact Fits.isRedBlack ⟨hround.1, hcontext, by simp⟩
                · rename_i u hu
                  rw [hu] at hround
                  exact (Fits.isRedBlack ⟨hround.1, hcontext, fun _ => rfl⟩).paint
          · rename_i hnot
            have hsb : p.sibling.isRed = false := by
              by_contra hr
              obtain ⟨l, y, r, hsib, _⟩ := hs.cases_red (by simpa using hr)
              exact hnot l y r hsib
            have hround := settleSibling_spec ht hs hsb
            split
            · rename_i u hu
              rw [hu] at hround
              obtain ⟨k, hk, hshort⟩ := short_of_round hround.1 hround.2
              rw [hk] at hrest
              exact ih hshort hrest
            · rename_i u hu
              rw [hu] at hround
              exact (Fits.isRedBlack ⟨hround.1, hrest,
                fun h => (hred (hround.2.mp h)).2⟩).paint

/-- The parts of a node that fits. -/
theorem Fits.parts {c : Color} {l r : Tree α} {x : α} {path : List (Hop α)} {n : Nat}
    (h : Fits (.node c l x r) path n) :
    ∃ k, Balanced l k ∧ Balanced r k ∧ Context path (heightAt c k) ∧
      (c = .red → l.isRed = false ∧ r.isRed = false) := by
  have hcontext := h.context
  cases h.balanced with
  | red _ hl hr hlb hrb => exact ⟨n, hl, hr, hcontext, fun _ => ⟨hlb, hrb⟩⟩
  | black _ hl hr => exact ⟨_, hl, hr, hcontext, fun hc => Color.noConfusion hc⟩

/-- The key of a node is of no account. -/
theorem Fits.rekey {c : Color} {l r : Tree α} {x : α} {path : List (Hop α)} {n : Nat}
    (h : Fits (.node c l x r) path n) (y : α) : Fits (.node c l y r) path n := by
  have hcontext := h.context
  have habove := h.above
  cases h.balanced with
  | red _ hl hr hlb hrb => exact ⟨.red y hl hr hlb hrb, hcontext, habove⟩
  | black _ hl hr => exact ⟨.black y hl hr, hcontext, by simp⟩

/-- Unlinking a node and repairing the colours leaves a red-black tree. -/
theorem unlink_isRedBlack {c : Color} {child : Tree α} {path : List (Hop α)} {n : Nat}
    (hchild : Balanced child n) (hpath : Context path (heightAt c n))
    (hred : c = .red → child.isRed = false) :
    (if c = .black then eraseColor child path else plug child path).IsRedBlack := by
  cases c with
  | red => exact Fits.isRedBlack ⟨hchild, hpath, by simp [hred rfl]⟩
  | black =>
      rw [if_pos rfl]
      exact eraseColor_isRedBlack hchild.short hpath

/-- The position of the leftmost node fits, and so does the node without its left child. -/
theorem Fits.leftmost {t r : Tree α} {path path' : List (Hop α)} {n : Nat} {c : Color} {x : α}
    (h : Fits t path n) (hfound : leftmost t path = some (c, x, r, path')) :
    ∃ k, Fits (.node c .nil x r) path' k := by
  induction t generalizing path n with
  | nil => simp [RedBlack.leftmost] at hfound
  | node d l y u ihl _ =>
      rw [RedBlack.leftmost] at hfound
      split at hfound
      · rename_i z hz
        obtain rfl := Option.some.inj hfound
        obtain ⟨k, hl, _⟩ := h.children
        exact ihl hl hz
      · rename_i hnone
        have hnil := leftmost_eq_none.mp hnone
        simp only [Option.some.injEq, Prod.mk.injEq] at hfound
        obtain ⟨rfl, rfl, rfl, rfl⟩ := hfound
        exact ⟨n, by rwa [hnil] at h⟩

/-- The ancestors at the start of a search stay behind those on its way. -/
theorem leftmost_append {t r : Tree α} {path below : List (Hop α)} {c : Color} {x : α}
    (base : List (Hop α)) (h : leftmost t path = some (c, x, r, below)) :
    leftmost t (path ++ base) = some (c, x, r, below ++ base) := by
  induction t generalizing path with
  | nil => simp [leftmost] at h
  | node d l y u ihl _ =>
      rw [leftmost] at h ⊢
      cases hl : leftmost l (⟨.left, d, y, u⟩ :: path) with
      | some z =>
          rw [hl] at h
          obtain rfl := Option.some.inj h
          rw [← List.cons_append, ihl hl]
      | none =>
          rw [hl] at h
          obtain ⟨rfl, rfl, rfl, rfl⟩ := h
          rw [leftmost_eq_none.mp hl]
          rfl

/-- The position of the leftmost node is one of the same tree. -/
theorem plug_leftmost {t r : Tree α} {path path' : List (Hop α)} {c : Color} {x : α}
    (h : leftmost t path = some (c, x, r, path')) :
    plug (.node c .nil x r) path' = plug t path := by
  induction t generalizing path with
  | nil => simp [leftmost] at h
  | node d l y u ihl _ =>
      rw [leftmost] at h
      cases hl : leftmost l (⟨.left, d, y, u⟩ :: path) with
      | some z =>
          rw [hl] at h
          obtain rfl := Option.some.inj h
          exact ihl hl
      | none =>
          rw [hl] at h
          obtain ⟨rfl, rfl, rfl, rfl⟩ := h
          rw [leftmost_eq_none.mp hl]

/-- A descent ends at a position of the same tree. -/
theorem plug_descend (goLeft : α → Bool) (t : Tree α) (path : List (Hop α)) :
    plug .nil (descend goLeft t path) = plug t path := by
  induction t generalizing path with
  | nil => rfl
  | node c l x r ihl ihr =>
      rw [descend]
      split
      · rw [ihl]
        rfl
      · rw [ihr]
        rfl

/-- The way to the leftmost node goes left. -/
theorem leftmost_side {t r : Tree α} {path path' : List (Hop α)} {c : Color} {x : α}
    (h : leftmost t path = some (c, x, r, path')) (hpath : ∀ p ∈ path, p.side = .left) :
    ∀ p ∈ path', p.side = .left := by
  induction t generalizing path with
  | nil => simp [leftmost] at h
  | node d l y u ihl _ =>
      rw [leftmost] at h
      cases hl : leftmost l (⟨.left, d, y, u⟩ :: path) with
      | some z =>
          rw [hl] at h
          obtain rfl := Option.some.inj h
          exact ihl hl (List.forall_mem_cons.mpr ⟨rfl, hpath⟩)
      | none =>
          rw [hl] at h
          obtain ⟨rfl, rfl, rfl, rfl⟩ := h
          exact hpath

/-- A tree is at least as high as one of its positions is deep. -/
theorem length_le_height_plug (t : Tree α) (path : List (Hop α)) :
    path.length + t.height ≤ (plug t path).height := by
  induction path generalizing t with
  | nil => simp [plug]
  | cons p path ih =>
      have hattach : t.height + 1 ≤ (p.attach t).height := by
        unfold Hop.attach
        cases p.side <;> simp only [Tree.height] <;> omega
      have hrest := ih (p.attach t)
      rw [plug, List.length_cons]
      omega

/-- The ancestors of a position below another one. -/
theorem plug_append (t : Tree α) (below path : List (Hop α)) :
    plug t (below ++ path) = plug (plug t below) path := by
  induction below generalizing t with
  | nil => rfl
  | cons p below ih => exact ih (p.attach t)

variable [DecidableEq α]

/-- The position of a node that is found is one of the same tree. -/
theorem plug_locate {x : α} {t l r : Tree α} {path path' : List (Hop α)} {c : Color}
    (h : locate x t path = some (c, l, r, path')) :
    plug (.node c l x r) path' = plug t path := by
  induction t generalizing path with
  | nil => simp [locate] at h
  | node d a y b iha ihb =>
      rw [locate] at h
      split at h
      · rename_i z hz
        obtain rfl := Option.some.inj h
        exact iha hz
      · by_cases hy : y = x
        · rw [if_pos hy] at h
          simp only [Option.some.injEq, Prod.mk.injEq] at h
          obtain ⟨rfl, rfl, rfl, rfl⟩ := h
          rw [hy]
        · rw [if_neg hy] at h
          exact ihb h

/-- The position of a node that is found fits. -/
theorem Fits.locate {x : α} {t l r : Tree α} {path path' : List (Hop α)} {n : Nat} {c : Color}
    (h : Fits t path n) (hfound : locate x t path = some (c, l, r, path')) :
    ∃ k, Fits (.node c l x r) path' k := by
  induction t generalizing path n with
  | nil => simp [RedBlack.locate] at hfound
  | node d a y b iha ihb =>
      obtain ⟨k, ha, hb⟩ := h.children
      rw [RedBlack.locate] at hfound
      split at hfound
      · rename_i z hz
        obtain rfl := Option.some.inj hfound
        exact iha ha hz
      · by_cases hy : y = x
        · rw [if_pos hy] at hfound
          simp only [Option.some.injEq, Prod.mk.injEq] at hfound
          obtain ⟨rfl, rfl, rfl, rfl⟩ := hfound
          exact ⟨n, by rwa [hy] at h⟩
        · rw [if_neg hy] at hfound
          exact ihb hb hfound

/-- Erasure keeps a tree red-black. -/
theorem Tree.IsRedBlack.erase {t : Tree α} (h : t.IsRedBlack) (x : α) :
    (erase x t).IsRedBlack := by
  obtain ⟨n, hfits⟩ := h.fits
  unfold RedBlack.erase
  split
  · exact h
  all_goals
    rename_i hsome
    obtain ⟨k, hnode⟩ := hfits.locate hsome
  · obtain ⟨_, _, hr, hpath, hred⟩ := hnode.parts
    exact unlink_isRedBlack hr hpath (fun hc => (hred hc).2)
  · obtain ⟨_, hl, _, hpath, hred⟩ := hnode.parts
    exact unlink_isRedBlack hl hpath (fun hc => (hred hc).1)
  · split
    · exact h
    · -- the successor takes the place of the node, and its own place is unlinked
      rename_i c' y child below hleft
      obtain ⟨_, _, hr⟩ := (hnode.rekey y).children
      obtain ⟨_, hplace⟩ := hr.leftmost (leftmost_append _ hleft)
      obtain ⟨_, _, hchild, hbelow, hredc⟩ := hplace.parts
      exact unlink_isRedBlack hchild hbelow (fun hc => (hredc hc).2)

end RedBlack
