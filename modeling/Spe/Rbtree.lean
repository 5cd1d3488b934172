import Spe.Cells
import Spe.RedBlackTree

/-!
# The red-black tree in memory (`spe_rbtree.h`, `spe_rbtree.c`)

A node is three machine words; the colour is the lowest bit of the word that holds the
address of the parent.  The functions of the source come in mirror images, which differ in
`rb_left` and `rb_right` only: here they are one definition over the side, and each keeps
its own name.

A read or a store where there is no node is a crash: `none`, and address 0 is never a node.
The loops take the number of rounds they are allowed; a loop that needs more is `none` too.
So a result `some` means that the function returns and follows no null pointer.
-/

namespace Spe

/-- `unsigned long` and pointers. -/
abbrev Word := BitVec 64

/-- `rb_left` or `rb_right`. -/
abbrev RbSide := RedBlack.Side

/-- `struct rb_node`. -/
structure RbNode where
  rbParentColor : Word
  rbRight : Word
  rbLeft : Word
  deriving DecidableEq

/-- The nodes of the process, and `root->rb_node`. -/
structure RbMem where
  node : Word → Option RbNode
  root : Word

/-- `RB_BLACK`. -/
def rbBlack : Word := 1

namespace RbNode

variable (r : RbNode)

/-- `rb_parent`. -/
def rbParent : Word := r.rbParentColor &&& ~~~3

/-- `rb_color`. -/
def rbColor : Word := r.rbParentColor &&& 1

/-- `rb_is_red`. -/
def rbIsRed : Bool := r.rbColor = 0

/-- `rb_is_black`. -/
def rbIsBlack : Bool := r.rbColor ≠ 0

/-- `rb_set_red`. -/
def rbSetRed : RbNode := { r with rbParentColor := r.rbParentColor &&& ~~~1 }

/-- `rb_set_black`. -/
def rbSetBlack : RbNode := { r with rbParentColor := r.rbParentColor ||| 1 }

/-- `rb_set_parent`. -/
def rbSetParent (p : Word) : RbNode :=
  { r with rbParentColor := (r.rbParentColor &&& 3) ||| p }

/-- `rb_set_color`. -/
def rbSetColor (color : Word) : RbNode :=
  { r with rbParentColor := (r.rbParentColor &&& ~~~1) ||| color }

/-- `rb_left` or `rb_right`. -/
def child : RbSide → Word
  | .left => r.rbLeft
  | .right => r.rbRight

/-- A store to `rb_left` or `rb_right`. -/
def setChild (s : RbSide) (p : Word) : RbNode :=
  match s with
  | .left => { r with rbLeft := p }
  | .right => { r with rbRight := p }

end RbNode

namespace RbMem

/-- A store to the node at an address. -/
def modify (m : RbMem) (p : Word) (f : RbNode → RbNode) : Option RbMem :=
  (Cells.modify m.node p f).map fun h => { m with node := h }

/-- `if (p) ...` around a store. -/
def modifyIf (m : RbMem) (p : Word) (f : RbNode → RbNode) : Option RbMem :=
  if p = 0 then some m else m.modify p f

/-- `p && rb_is_red(p)`. -/
def isRedAt (m : RbMem) (p : Word) : Option Bool :=
  if p = 0 then some false else (m.node p).map RbNode.rbIsRed

/-- `!p || rb_is_black(p)`. -/
def isBlackAt (m : RbMem) (p : Word) : Option Bool :=
  if p = 0 then some true else (m.node p).map RbNode.rbIsBlack

/-- The link from a parent, or from the root, to `old` is set to `new`; `s` is the side on
which the source looks for `old`. -/
def relink (m : RbMem) (s : RbSide) (parent old new : Word) : Option RbMem :=
  if parent = 0 then some { m with root := new } else do
    let p ← m.node parent
    if p.child s = old then m.modify parent (·.setChild s new)
    else m.modify parent (·.setChild s.other new)

end RbMem

/-- The rotation that brings the child on side `s` up. -/
def rbRotate (s : RbSide) (node : Word) (m : RbMem) : Option RbMem := do
  let n ← m.node node
  let up := n.child s
  let parent := n.rbParent
  let u ← m.node up
  let inner := u.child s.other
  let m ← m.modify node (·.setChild s inner)
  let m ← m.modifyIf inner (·.rbSetParent node)
  let m ← m.modify up (·.setChild s.other node)
  let m ← m.modify up (·.rbSetParent parent)
  let m ← m.relink s.other parent node up
  m.modify node (·.rbSetParent up)

/-- `__rb_rotate_left`. -/
def rbRotateLeft : Word → RbMem → Option RbMem := rbRotate .right

/-- `__rb_rotate_right`. -/
def rbRotateRight : Word → RbMem → Option RbMem := rbRotate .left

/-- `rb_init_node`. -/
def rbInitNode (node : Word) (m : RbMem) : Option RbMem := do
  let m ← m.modify node (fun r => { r with rbParentColor := 0 })
  let m ← m.modify node (·.setChild .right 0)
  let m ← m.modify node (·.setChild .left 0)
  m.modify node (·.rbSetParent node)

/-- Where a pointer to a node is kept: `struct rb_node **`. -/
inductive RbLink
  | root
  | child (s : RbSide) (parent : Word)
  deriving DecidableEq

/-- The pointer that is kept there. -/
def RbMem.load (m : RbMem) : RbLink → Option Word
  | .root => some m.root
  | .child s parent => (m.node parent).map (·.child s)

/-- A store to the pointer that is kept there. -/
def RbMem.store (m : RbMem) (p : Word) : RbLink → Option RbMem
  | .root => some { m with root := p }
  | .child s parent => m.modify parent (·.setChild s p)

/-- `rb_link_node`. -/
def rbLinkNode (node parent : Word) (link : RbLink) (m : RbMem) : Option RbMem := do
  let m ← m.modify node (fun r => { r with rbParentColor := parent })
  let m ← m.modify node (·.setChild .right 0)
  let m ← m.modify node (·.setChild .left 0)
  m.store node link

/-- `rb_insert_color` under a red uncle. -/
def rbRecolor (uncle parent gparent : Word) (m : RbMem) : Option RbMem := do
  let m ← m.modify uncle RbNode.rbSetBlack
  let m ← m.modify parent RbNode.rbSetBlack
  m.modify gparent RbNode.rbSetRed

/-- `rb_insert_color` with the parent outside: the grandparent is rotated down. -/
def rbTurn (s : RbSide) (parent gparent : Word) (m : RbMem) : Option RbMem := do
  let m ← m.modify parent RbNode.rbSetBlack
  let m ← m.modify gparent RbNode.rbSetRed
  rbRotate s gparent m

/-- The loop of `rb_insert_color`. -/
def rbInsertColorLoop : Nat → Word → RbMem → Option RbMem
  | 0, _, _ => none
  | fuel + 1, node, m => do
      let n ← m.node node
      let parent := n.rbParent
      if parent = 0 then some m else
      let p ← m.node parent
      if ¬ p.rbIsRed then some m else
      let gparent := p.rbParent
      let g ← m.node gparent
      let side : RbSide := if g.rbLeft = parent then .left else .right
      let uncle := g.child side.other
      if ← m.isRedAt uncle then
        let m ← rbRecolor uncle parent gparent m
        rbInsertColorLoop fuel gparent m
      else if p.child side.other = node then
        let m ← rbRotate side.other parent m
        -- here `parent` and `node` change their names
        let m ← rbTurn side node gparent m
        rbInsertColorLoop fuel parent m
      else
        let m ← rbTurn side parent gparent m
        rbInsertColorLoop fuel node m

/-- `rb_insert_color`. -/
def rbInsertColor (fuel : Nat) (node : Word) (m : RbMem) : Option RbMem := do
  let m ← rbInsertColorLoop fuel node m
  m.modify m.root RbNode.rbSetBlack

/-- A round of `__rb_erase_color` begins with the sibling: a red one is rotated above the
parent.  The result has the sibling after that. -/
def rbLiftSibling (near : RbSide) (parent : Word) (m : RbMem) : Option (RbMem × Word) := do
  let p ← m.node parent
  let other := p.child near.other
  let o ← m.node other
  if o.rbIsRed then
    let m ← m.modify other RbNode.rbSetBlack
    let m ← m.modify parent RbNode.rbSetRed
    let m ← rbRotate near.other parent m
    let p ← m.node parent
    some (m, p.child near.other)
  else some (m, other)

/-- The last round of `__rb_erase_color` begins with the child of the sibling on the far
side: when it is black, the one on the near side is red and is rotated above the sibling.
The result has the sibling after that. -/
def rbLiftNephew (near : RbSide) (parent other : Word) (m : RbMem) : Option (RbMem × Word) := do
  let o ← m.node other
  if ← m.isBlackAt (o.child near.other) then
    let m ← m.modify (o.child near) RbNode.rbSetBlack
    let m ← m.modify other RbNode.rbSetRed
    let m ← rbRotate near other m
    let p ← m.node parent
    some (m, p.child near.other)
  else some (m, other)

/-- The last round of `__rb_erase_color` ends with the rotation of the parent. -/
def rbLowerParent (near : RbSide) (parent other : Word) (m : RbMem) : Option RbMem := do
  let p ← m.node parent
  let m ← m.modify other (·.rbSetColor p.rbColor)
  let m ← m.modify parent RbNode.rbSetBlack
  let o ← m.node other
  let m ← m.modify (o.child near.other) RbNode.rbSetBlack
  rbRotate near.other parent m

/-- A round of `__rb_erase_color` with a black sibling.  When the sibling has no red child,
it turns red and the loop goes on at the parent (`true`). -/
def rbEraseRound (near : RbSide) (parent other : Word) (m : RbMem) : Option (RbMem × Bool) := do
  let o ← m.node other
  let leftBlack ← m.isBlackAt o.rbLeft
  let bothBlack ← if leftBlack then m.isBlackAt o.rbRight else some false
  if bothBlack then
    let m ← m.modify other RbNode.rbSetRed
    some (m, true)
  else
    let (m, other) ← rbLiftNephew near parent other m
    let m ← rbLowerParent near parent other m
    some (m, false)

/-- The loop of `__rb_erase_color`, with `node` as the loop leaves it. -/
def rbEraseColorLoop : Nat → Word → Word → RbMem → Option (RbMem × Word)
  | 0, _, _, _ => none
  | fuel + 1, node, parent, m => do
      let black ← m.isBlackAt node
      if ¬ (black ∧ node ≠ m.root) then some (m, node) else
      let p ← m.node parent
      let near : RbSide := if p.rbLeft = node then .left else .right
      let (m, other) ← rbLiftSibling near parent m
      let (m, goesOn) ← rbEraseRound near parent other m
      if goesOn then
        let n ← m.node parent
        rbEraseColorLoop fuel parent n.rbParent m
      else some (m, m.root)

/-- `__rb_erase_color`. -/
def rbEraseColor (fuel : Nat) (node parent : Word) (m : RbMem) : Option RbMem := do
  let (m, node) ← rbEraseColorLoop fuel node parent m
  m.modifyIf node RbNode.rbSetBlack

/-- `while (n->child) n = n->child`. -/
def rbDescend (s : RbSide) : Nat → Word → RbMem → Option Word
  | 0, _, _ => none
  | fuel + 1, n, m => do
      let r ← m.node n
      if r.child s = 0 then some n else
      rbDescend s fuel (r.child s) m

/-- The part of `rb_erase` for a node without two children. -/
def rbUnlink (fuel : Nat) (node child : Word) (m : RbMem) : Option RbMem := do
  let n ← m.node node
  let parent := n.rbParent
  let color := n.rbColor
  let m ← m.modifyIf child (·.rbSetParent parent)
  let m ← m.relink .left parent node child
  if color = rbBlack then rbEraseColor fuel child parent m else some m

/-- The part of `rb_erase` that takes the successor `node` out of its place, unless it is the
child of `old`.  The result has the node below which the successor is missing. -/
def rbTakeOut (old node child parent : Word) (m : RbMem) : Option (RbMem × Word) :=
  if parent = old then some (m, node) else do
    let m ← m.modifyIf child (·.rbSetParent parent)
    let m ← m.modify parent (·.setChild .left child)
    let o ← m.node old
    let m ← m.modify node (·.setChild .right o.rbRight)
    let m ← m.modify o.rbRight (·.rbSetParent node)
    some (m, parent)

/-- The part of `rb_erase` that puts `node` in the place of `old`. -/
def rbTakeOver (old node : Word) (m : RbMem) : Option RbMem := do
  let o ← m.node old
  let m ← m.modify node (fun r => { r with rbParentColor := o.rbParentColor })
  let m ← m.modify node (·.setChild .left o.rbLeft)
  m.modify o.rbLeft (·.rbSetParent node)

/-- The part of `rb_erase` for a node with two children, which its successor replaces. -/
def rbReplaceBySuccessor (fuel : Nat) (old node : Word) (m : RbMem) : Option RbMem := do
  let o ← m.node old
  let m ← m.relink .left o.rbParent old node
  let n ← m.node node
  let child := n.rbRight
  let color := n.rbColor
  let (m, parent) ← rbTakeOut old node child n.rbParent m
  let m ← rbTakeOver old node m
  if color = rbBlack then rbEraseColor fuel child parent m else some m

/-- `rb_erase`. -/
def rbErase (fuel : Nat) (node : Word) (m : RbMem) : Option RbMem := do
  let n ← m.node node
  if n.rbLeft = 0 then rbUnlink fuel node n.rbRight m
  else if n.rbRight = 0 then rbUnlink fuel node n.rbLeft m
  else
    let next ← rbDescend .left fuel n.rbRight m
    rbReplaceBySuccessor fuel node next m

/-- The node at one end of the order. -/
def rbEnd (s : RbSide) (fuel : Nat) (m : RbMem) : Option Word :=
  if m.root = 0 then some 0 else rbDescend s fuel m.root m

/-- `rb_first`. -/
def rbFirst : Nat → RbMem → Option Word := rbEnd .left

/-- `rb_last`. -/
def rbLast : Nat → RbMem → Option Word := rbEnd .right

/-- `while ((parent = rb_parent(node)) && node == parent->child) node = parent`, and the
parent in the end. -/
def rbClimb (s : RbSide) : Nat → Word → RbMem → Option Word
  | 0, _, _ => none
  | fuel + 1, node, m => do
      let n ← m.node node
      let parent := n.rbParent
      if parent = 0 then some parent else
      let p ← m.node parent
      if p.child s ≠ node then some parent else
      rbClimb s fuel parent m

/-- The neighbour of a node in the order, on side `s`. -/
def rbStep (s : RbSide) (fuel : Nat) (node : Word) (m : RbMem) : Option Word := do
  let n ← m.node node
  if n.rbParent = node then some 0 else
  if n.child s ≠ 0 then rbDescend s.other fuel (n.child s) m
  else rbClimb s fuel node m

/-- `rb_next`. -/
def rbNext : Nat → Word → RbMem → Option Word := rbStep .right

/-- `rb_prev`. -/
def rbPrev : Nat → Word → RbMem → Option Word := rbStep .left

/-- `rb_replace_node`. -/
def rbReplaceNode (victim new : Word) (m : RbMem) : Option RbMem := do
  let v ← m.node victim
  let m ← m.relink .left v.rbParent victim new
  let v ← m.node victim
  let m ← m.modifyIf v.rbLeft (·.rbSetParent new)
  let v ← m.node victim
  let m ← m.modifyIf v.rbRight (·.rbSetParent new)
  let v ← m.node victim
  m.modify new (fun _ => v)

end Spe
