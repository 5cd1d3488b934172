import Mathlib.Data.List.Sort
import Spe.TaskRefines

/-!
# The tree in memory as a sorted sequence

`spe_rbtree.c` leaves the comparison to its callers: they walk down to a free place, link the
node there and have the colours repaired.  With the walk of `spe_task_schedule_timeout`, over
nodes with any key, the library is a sequence of nodes sorted by key, in which equal keys keep
the order of insertion.  Every run of insertions, erasures and replacements does to the memory
what it does to the sequence (`RbMem.calls_sorted`).
-/

namespace RedBlack

variable {α : Type} [DecidableEq α]

/-- A key takes the place of another one; the shape and the colours stay. -/
def replace (x y : α) (t : Tree α) : Tree α :=
  match locate x t [] with
  | none => t
  | some (c, l, r, path) => plug (.node c l y r) path

/-- Replacing a key replaces its first occurrence in the sequence. -/
theorem toList_replace (x y : α) (t : Tree α) :
    (replace x y t).toList = t.toList.replace x y := by
  unfold replace
  split
  · rename_i hnone
    rw [List.replace_of_not_mem (locate_eq_none.mp hnone)]
  · rename_i hsome
    obtain ⟨pre, post, hsplit, hpre, hb, ha⟩ := locate_spec hsome
    simp only [keysBefore, keysAfter, List.nil_append, List.append_nil] at hb ha
    rw [hsplit, List.replace_append_right hpre, List.replace_cons_self, toList_plug,
      Tree.toList_node, ← hb, ← ha]
    simp

/-- Replacing a key keeps a tree red-black. -/
theorem Tree.IsRedBlack.replace {t : Tree α} (h : t.IsRedBlack) (x y : α) :
    (replace x y t).IsRedBlack := by
  obtain ⟨n, hfits⟩ := h.fits
  unfold RedBlack.replace
  split
  · exact h
  · rename_i hsome
    obtain ⟨k, hnode⟩ := hfits.locate hsome
    exact (hnode.rekey y).isRedBlack

end RedBlack

namespace Spe

open Transition
open RedBlack

variable {α β : Type}

section Nodes

variable {A : Addressing α} {m : RbMem} {F : Multiset (Word × RbNode)}

/-- `rb_replace_node` puts a node in the place of another one, whose cell is left over as it
was. -/
theorem rbReplaceNode_spec {c : Color} {l r : RbTree α} {x y : α} {path : List (Hop α)}
    {v : RbNode} (h : m.Represents A (plug (.node c l x r) path) ({(A.addr y, v)} + F)) :
    ∃ m' X, rbReplaceNode (A.addr x) (A.addr y) m = some m' ∧
      m'.Represents A (plug (.node c l y r) path) ({(A.addr x, X)} + F) := by
  obtain ⟨hcells, hroot⟩ := h.focus
  rw [treeCells_node, ptr_node] at hcells
  obtain ⟨X, hX⟩ : ∃ X, X = rbCell .left (A.above 0 path) c (A.ptr l) (A.ptr r) := ⟨_, rfl⟩
  rw [← hX] at hcells
  have hparent : X.rbParent = A.above 0 path := by
    rw [hX, rbCell_parent _ _ _ _ (aligned_above A aligned_zero path)]
  have hleft : X.rbLeft = A.ptr l := by rw [hX, rbCell_rbLeft]
  have hright : X.rbRight = A.ptr r := by rw [hX, rbCell_rbRight]
  have hlink : Cells.Holds m.node ({(A.addr x, X)} + (pathCells A 0 (A.addr x) path +
      (treeCells A (A.addr x) l + treeCells A (A.addr x) r + ({(A.addr y, v)} + F)))) :=
    hcells.congr (by abel)
  obtain ⟨m₁, hm₁, h₁, hr₁⟩ := relink_spec .left (A.addr y) hlink (A.ne_zero x) hroot
  have hbelow : Cells.Holds m₁.node (treeCells A (A.addr x) l + ({(A.addr x, X)} +
      (treeCells A (A.addr x) r + pathCells A 0 (A.addr y) path + ({(A.addr y, v)} + F)))) :=
    h₁.congr (by abel)
  obtain ⟨m₂, hm₂, h₂, hr₂⟩ := setParent_spec hbelow (A.aligned x) (A.addr y)
  have hother : Cells.Holds m₂.node (treeCells A (A.addr x) r + ({(A.addr x, X)} +
      (treeCells A (A.addr y) l + pathCells A 0 (A.addr y) path + ({(A.addr y, v)} + F)))) :=
    h₂.congr (by abel)
  obtain ⟨m₃, hm₃, h₃, hr₃⟩ := setParent_spec hother (A.aligned x) (A.addr y)
  have hnew : Cells.Holds m₃.node ({(A.addr y, v)} + ({(A.addr x, X)} + (treeCells A (A.addr y) l +
      treeCells A (A.addr y) r + pathCells A 0 (A.addr y) path + F))) :=
    h₃.congr (by abel)
  obtain ⟨m₄, hm₄, h₄, hr₄⟩ := modify_spec hnew (fun _ => X)
  have hx₂ : m₂.node (A.addr x) = some X := Cells.Holds.read (h₂.congr (add_left_comm _ _ _))
  have hx₃ : m₃.node (A.addr x) = some X := Cells.Holds.read (h₃.congr (add_left_comm _ _ _))
  refine ⟨m₄, X, ?_, represents_of_focus ?_ (by rw [hr₄, hr₃, hr₂, hr₁, ptr_node])⟩
  · simp only [rbReplaceNode, hlink.read, Option.bind_eq_bind, Option.bind_some, hparent, hm₁,
      h₁.read, hleft, hm₂, hx₂, hright, hm₃, hx₃, hm₄]
  · rw [treeCells_node, ptr_node, ← hX]
    exact h₄.congr (by abel)

variable [DecidableEq α]

/-- **Replacement.**  `rb_replace_node` of a node in the tree by one that is not, and
`rb_init_node` of the node that is left over. -/
theorem RbMem.InMemory.replace {t : RbTree α} {x y : α} (h : m.InMemory A t)
    (hx : x ∈ t.toList) (hy : y ∉ t.toList) :
    ∃ m₁ m', rbReplaceNode (A.addr x) (A.addr y) m = some m₁ ∧
      rbInitNode (A.addr x) m₁ = some m' ∧ m'.InMemory A (replace x y t) := by
  obtain ⟨⟨c, l, r, path⟩, hfound⟩ :=
    Option.ne_none_iff_exists'.mp (fun hnone => locate_eq_none.mp hnone hx)
  have hplug : plug (.node c l x r) path = plug t [] := plug_locate hfound
  have hplace : RedBlack.replace x y t = plug (.node c l y r) path := by
    unfold RedBlack.replace
    rw [hfound]
  have hspec : ∀ F, m.Represents A t ({(A.addr y, A.cleared y)} + F) → ∃ m₁ m',
      rbReplaceNode (A.addr x) (A.addr y) m = some m₁ ∧
      rbInitNode (A.addr x) m₁ = some m' ∧
      m'.Represents A (RedBlack.replace x y t) ({(A.addr x, A.cleared x)} + F) := by
    intro F hF
    rw [plug] at hplug
    rw [← hplug] at hF
    obtain ⟨m₁, X, hm₁, h₁⟩ := rbReplaceNode_spec hF
    obtain ⟨m', hm', h'⟩ := rbInitNode_spec h₁
    rw [hplace]
    exact ⟨m₁, m', hm₁, hm', h'⟩
  obtain ⟨m₁, m', hm₁, hm', h'⟩ := hspec 0 (h.one hy)
  refine ⟨m₁, m', hm₁, hm', h'.drop, ?_⟩
  intro z hz
  by_cases hzx : z = x
  · subst hzx
    exact Cells.Holds.read (h'.cells.congr (add_left_comm _ _ _))
  · obtain ⟨pre, post, hsplit, hpre⟩ := List.eq_append_cons_of_mem hx
    rw [toList_replace, hsplit, List.replace_append_right hpre, List.replace_cons_self,
      List.mem_append, List.mem_cons, not_or, not_or] at hz
    have hzt : z ∉ t.toList := by
      rw [hsplit, List.mem_append, List.mem_cons, not_or, not_or]
      exact ⟨hz.1, hzx, hz.2.2⟩
    obtain ⟨n₁, n', hn₁, hn', hother⟩ := hspec _ (h.two hy hzt (Ne.symm hz.2.1))
    obtain rfl : m₁ = n₁ := Option.some.inj (hm₁.symm.trans hn₁)
    obtain rfl : m' = n' := Option.some.inj (hm'.symm.trans hn')
    have hread : Cells.Holds m'.node ({(A.addr z, A.cleared z)} +
        (treeCells A 0 (RedBlack.replace x y t) + {(A.addr x, A.cleared x)})) :=
      hother.cells.congr (by abel)
    exact hread.read

end Nodes

/-! ## Calls -/

/-- What a caller does with the tree. -/
inductive RbCall (α : Type)
  | insert (x : α)
  | erase (x : α)
  | replace (victim new : α)

variable [DecidableEq α] [LinearOrder β] (L : Layout α) (key : α → β) (fuel : Nat)

/-- A call on the memory.  As in `spe_task.c`, a node that leaves the tree is initialised
again. -/
def RbMem.call (m : RbMem) : RbCall α → Option RbMem
  | .insert x => do
      let (new, parent) ← timerWalk (fun p => decide (key x < key (L.rbEntry p))) fuel .root 0 m
      let m ← rbLinkNode (L.addr x) parent new m
      rbInsertColor fuel (L.addr x) m
  | .erase x => do
      let m ← rbErase fuel (L.addr x) m
      rbInitNode (L.addr x) m
  | .replace victim new => do
      let m ← rbReplaceNode (L.addr victim) (L.addr new) m
      rbInitNode (L.addr victim) m

namespace RbCall

/-- What a call means for the sequence of the nodes. -/
def apply (xs : List α) : RbCall α → List α
  | .insert x => xs.orderedInsert (fun a b => key a < key b) x
  | .erase x => xs.erase x
  | .replace victim new => xs.replace victim new

/-- A caller inserts a node once, erases a node that is there, and replaces it by one with the
same key. -/
def Allowed (xs : List α) : RbCall α → Prop
  | .insert x => x ∉ xs
  | .erase x => x ∈ xs
  | .replace victim new => victim ∈ xs ∧ new ∉ xs ∧ key new = key victim

instance (xs : List α) : ∀ e, Decidable (Allowed key xs e)
  | .insert x => inferInstanceAs (Decidable (x ∉ xs))
  | .erase x => inferInstanceAs (Decidable (x ∈ xs))
  | .replace victim new =>
      inferInstanceAs (Decidable (victim ∈ xs ∧ new ∉ xs ∧ key new = key victim))

end RbCall

/-- The nodes of a sorted sequence are those of a red-black tree in memory. -/
structure RbMem.Sorted (m : RbMem) (xs : List α) : Prop where
  tree : ∃ t, m.InMemory L.toAddressing t ∧ t.IsRedBlack ∧ t.toList = xs
  once : xs.Nodup
  order : xs.Pairwise (fun a b => key a ≤ key b)

variable {L key fuel} {m : RbMem} {xs : List α}

omit [DecidableEq α] in
/-- The place of a key is behind those that are not greater. -/
theorem orderedInsert_eq {pre post : List α} {x : α} (hpre : ∀ a ∈ pre, ¬ key x < key a)
    (hpost : ∀ b ∈ post, key x < key b) :
    (pre ++ post).orderedInsert (fun a b => key a < key b) x = pre ++ x :: post := by
  have hbefore : ∀ a ∈ pre, decide (¬ key x < key a) = true :=
    fun a ha => decide_eq_true (hpre a ha)
  rw [List.orderedInsert_eq_take_drop, List.takeWhile_append_of_pos hbefore,
    List.dropWhile_append_of_pos hbefore]
  cases post with
  | nil => simp
  | cons b post => simp [hpost b List.mem_cons_self]

/-- An insertion. -/
theorem RbMem.Sorted.insert (h : m.Sorted L key xs) (hfuel : 130 ≤ fuel) {x : α}
    (hx : x ∉ xs) :
    ∃ m', m.call L key fuel (.insert x) = some m' ∧
      m'.Sorted L key ((RbCall.insert x).apply key xs) := by
  obtain ⟨⟨t, hmem, hbal, rfl⟩, honce, horder⟩ := h
  have hheight := L.height_le hbal honce
  obtain ⟨new, parent, m₁, m', hwalk, hm₁, hm', h'⟩ := hmem.insert
    (fun p => decide (key x < key (L.rbEntry p))) hbal hx (show t.height + 2 ≤ fuel by omega)
  simp only [L.rbEntry_addr] at h'
  have hmono : t.toList.Pairwise
      (fun a b => decide (key x < key a) = true → decide (key x < key b) = true) := by
    apply horder.imp
    intro a b hab ha
    exact decide_eq_true ((of_decide_eq_true ha).trans_le hab)
  obtain ⟨pre, post, hsplit, hpre, hpost, hinsert⟩ := toList_insert x hmono
  simp only [decide_eq_true_eq] at hpre hpost
  have happly : (RbCall.insert x).apply key t.toList = pre ++ x :: post := by
    rw [hsplit]
    exact orderedInsert_eq hpre hpost
  refine ⟨m', ?_, ⟨_, h', hbal.insert _ x, hinsert.trans happly.symm⟩, ?_, ?_⟩
  · simp only [RbMem.call, hwalk, hm₁, hm', Option.bind_eq_bind, Option.bind_some]
  · rw [happly, List.nodup_middle, ← hsplit]
    exact List.nodup_cons.mpr ⟨hx, honce⟩
  · rw [hsplit, List.pairwise_append] at horder
    obtain ⟨hbefore, hafter, hcross⟩ := horder
    rw [happly, List.pairwise_append, List.pairwise_cons]
    refine ⟨hbefore, ⟨fun b hb => (hpost b hb).le, hafter⟩, ?_⟩
    intro a ha b hb
    rcases List.mem_cons.mp hb with rfl | hb
    · exact not_lt.mp (hpre a ha)
    · exact hcross a ha b hb

/-- An erasure. -/
theorem RbMem.Sorted.erase (h : m.Sorted L key xs) (hfuel : 130 ≤ fuel) {x : α}
    (hx : x ∈ xs) :
    ∃ m', m.call L key fuel (.erase x) = some m' ∧
      m'.Sorted L key ((RbCall.erase x).apply key xs) := by
  obtain ⟨⟨t, hmem, hbal, rfl⟩, honce, horder⟩ := h
  have hheight := L.height_le hbal honce
  obtain ⟨m₁, m', hm₁, hm', h'⟩ := hmem.erase hbal hx (show t.height + 2 ≤ fuel by omega)
  refine ⟨m', ?_, ⟨_, h', hbal.erase x, toList_erase x t⟩, honce.erase x, ?_⟩
  · simp only [RbMem.call, hm₁, hm', Option.bind_eq_bind, Option.bind_some]
  · exact horder.sublist List.erase_sublist

/-- A replacement by a node with the same key. -/
theorem RbMem.Sorted.replace (h : m.Sorted L key xs) {x y : α} (hx : x ∈ xs) (hy : y ∉ xs)
    (hkey : key y = key x) :
    ∃ m', m.call L key fuel (.replace x y) = some m' ∧
      m'.Sorted L key ((RbCall.replace x y).apply key xs) := by
  obtain ⟨⟨t, hmem, hbal, rfl⟩, honce, horder⟩ := h
  obtain ⟨m₁, m', hm₁, hm', h'⟩ := hmem.replace hx hy
  obtain ⟨pre, post, hsplit, hpre⟩ := List.eq_append_cons_of_mem hx
  have happly : (RbCall.replace x y).apply key t.toList = pre ++ y :: post := by
    rw [hsplit]
    show (pre ++ x :: post).replace x y = _
    rw [List.replace_append_right hpre, List.replace_cons_self]
  refine ⟨m', ?_, ⟨_, h', hbal.replace x y, toList_replace x y t⟩, ?_, ?_⟩
  · simp only [RbMem.call, hm₁, hm', Option.bind_eq_bind, Option.bind_some]
  · rw [hsplit, List.nodup_middle, List.nodup_cons] at honce
    rw [hsplit, List.mem_append, List.mem_cons, not_or, not_or] at hy
    rw [happly, List.nodup_middle, List.nodup_cons, List.mem_append, not_or]
    exact ⟨⟨hy.1, hy.2.2⟩, honce.2⟩
  · -- the sequence of the keys is the same
    have hkeys : (pre ++ y :: post).map key = t.toList.map key := by
      rw [hsplit]
      simp [hkey]
    rw [happly, ← List.pairwise_map (R := (· ≤ ·)), hkeys, List.pairwise_map]
    exact horder

/-- **Call.**  Every call that is allowed returns and does to the memory what it does to the
sequence. -/
theorem RbMem.Sorted.call (h : m.Sorted L key xs) (hfuel : 130 ≤ fuel) {e : RbCall α}
    (hok : e.Allowed key xs) :
    ∃ m', m.call L key fuel e = some m' ∧ m'.Sorted L key (e.apply key xs) := by
  cases e with
  | insert x => exact h.insert hfuel hok
  | erase x => exact h.erase hfuel hok
  | replace victim new => exact h.replace hok.1 hok.2.1 hok.2.2

/-- A run of calls. -/
theorem RbMem.Sorted.calls (h : m.Sorted L key xs) (hfuel : 130 ≤ fuel) {es : List (RbCall α)}
    {ys : List α}
    (hrun : Run (fun xs e => some (RbCall.apply key xs e)) (RbCall.Allowed key) xs es ys) :
    ∃ m', exec (RbMem.call L key fuel) m es = some m' ∧ m'.Sorted L key ys := by
  induction hrun generalizing m with
  | nil xs => exact ⟨m, rfl, h⟩
  | cons hstep hok _ ih =>
      obtain rfl := Option.some.inj hstep
      obtain ⟨m₁, hm₁, h₁⟩ := h.call hfuel hok
      obtain ⟨m', hm', h'⟩ := ih h₁
      refine ⟨m', ?_, h'⟩
      rw [exec, hm₁]
      exact hm'

omit [DecidableEq α] in
/-- The empty tree is the empty sequence. -/
theorem RbMem.sorted_nil (hroot : m.root = 0)
    (hclear : ∀ x, m.node (L.addr x) = some (L.cleared x)) : m.Sorted L key [] := by
  refine ⟨⟨.nil, ⟨⟨Cells.holds_zero, hroot⟩, fun x _ => hclear x⟩, ?_, rfl⟩, List.nodup_nil,
    List.Pairwise.nil⟩
  exact ⟨rfl, 0, .nil⟩

/-- **Sorted sequence.**  From an empty tree, every run of insertions, erasures and
replacements returns, whatever the keys are.  At its end the memory is a red-black tree of the
nodes that were inserted and not erased, sorted by key, and those of one key in the order of
insertion; a node that replaced another one has its place.  `rb_first` and `rb_next` visit just
these nodes in this order, and `rb_last` and `rb_prev` backwards. -/
theorem RbMem.calls_sorted {es : List (RbCall α)} (hfuel : 130 ≤ fuel) (hroot : m.root = 0)
    (hclear : ∀ x, m.node (L.addr x) = some (L.cleared x))
    (hrun : Run (fun xs e => some (RbCall.apply key xs e)) (RbCall.Allowed key) [] es xs) :
    ∃ m', exec (RbMem.call L key fuel) m es = some m' ∧ m'.Sorted L key xs ∧
      rbFirst fuel m' = some (L.ref xs.head?) ∧
      rbLast fuel m' = some (L.ref xs.getLast?) ∧
      (∀ pre x post, xs = pre ++ x :: post →
        rbNext fuel (L.addr x) m' = some (L.ref post.head?) ∧
        rbPrev fuel (L.addr x) m' = some (L.ref pre.getLast?)) ∧
      ∀ x, x ∉ xs → rbNext fuel (L.addr x) m' = some 0 ∧ rbPrev fuel (L.addr x) m' = some 0 := by
  obtain ⟨m', hm', h'⟩ := (RbMem.sorted_nil hroot hclear).calls hfuel hrun
  refine ⟨m', hm', h', ?_⟩
  obtain ⟨⟨t, hmem, hbal, rfl⟩, honce, _⟩ := h'
  have hheight := L.height_le hbal honce
  exact hmem.visits (by omega)

/-- Two nodes with one key, and one with a greater key. -/
def threeKeys : Fin 3 → Nat
  | 0 => 10
  | 1 => 30
  | 2 => 10

/-- A node takes the place of one with the same key, which then comes behind it. -/
theorem RbMem.calls_sorted_three :
    ∃ m, exec (RbMem.call threeTasks threeKeys 130) (PtrMachine.start threeTasks Unit).sched.mem
        [.insert 1, .insert 0, .replace 0 2, .insert 0, .erase 1] = some m ∧
      rbFirst 130 m = some 72 ∧ rbNext 130 72 m = some 24 ∧ rbNext 130 24 m = some 0 := by
  have hrun : Run (fun xs e => some (RbCall.apply threeKeys xs e)) (RbCall.Allowed threeKeys) []
      [.insert 1, .insert 0, .replace 0 2, .insert 0, .erase 1] [2, 0] := by
    apply Run.cons rfl (by decide)
    apply Run.cons rfl (by decide)
    apply Run.cons rfl (by decide)
    apply Run.cons rfl (by decide)
    apply Run.cons rfl (by decide)
    exact Run.nil _
  obtain ⟨m, hm, _, hfirst, _, hnext, _⟩ := RbMem.calls_sorted
    (L := threeTasks) (m := (PtrMachine.start threeTasks Unit).sched.mem) (Nat.le_refl 130) rfl
    (by decide) hrun
  exact ⟨m, hm, hfirst, (hnext [] 2 [0] rfl).1, (hnext [2] 0 [] rfl).1⟩

end Spe
