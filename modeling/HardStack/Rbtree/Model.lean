import HardStack.Lib.RbTree
import HardStack.Lib.Run

/-! # The red-black tree of `Algorithem/tree/rb-tree/Basic`

`rbtree.c` and `rbtree.h`. A `struct rb_node *` is its address, `NULL` is `0`, and
`__rb_parent_color` is the word that packs the parent's address and the colour. Each branch of the
fix-up loops that the source writes twice, once for each side, is one definition that takes the
side; the one place where the two copies differ, the `break` that the right-hand side of
`__rb_insert` lacks, stays in the loop.

The augmented callbacks read the tree and change the data `aug` that the nodes are embedded in. The
loops of the source have no bound; here they take fuel and return `none` when it runs out. -/

namespace HardStack.Rbtree.Model

open HardStack.Lib.RbTree

/-- The fields of all `struct rb_node`, and `root->rb_node`. -/
structure State (α : Type) where
  parentColor : ℕ → ℕ
  child : Dir → ℕ → ℕ
  root : ℕ
  aug : α

/-- `struct rb_augment_callbacks`. -/
structure AugmentCallbacks (α : Type) where
  propagate : State α → (node stop : ℕ) → α
  copy : State α → (old new : ℕ) → α
  rotate : State α → (old new : ℕ) → α

def dummyCallbacks {α : Type} : AugmentCallbacks α where
  propagate := fun s _ _ => s.aug
  copy := fun s _ _ => s.aug
  rotate := fun s _ _ => s.aug

def RB_RED : ℕ := 0
def RB_BLACK : ℕ := 1

/-- `RB_ROOT`, over memory that holds anything. -/
def RB_ROOT {α : Type} (s : State α) : State α := { s with root := 0 }

/-- `pc & ~3`. -/
def pcParent (pc : ℕ) : ℕ := pc - pc % 4

/-- `pc & 1`, as a truth value. -/
def pcIsBlack (pc : ℕ) : Bool := pc % 2 == 1

namespace State

variable {α : Type} (s : State α)

def rbParent (rb : ℕ) : ℕ := pcParent (s.parentColor rb)
def rbRedParent (red : ℕ) : ℕ := s.parentColor red
def rbIsBlack (rb : ℕ) : Bool := pcIsBlack (s.parentColor rb)
def rbIsRed (rb : ℕ) : Bool := !s.rbIsBlack rb

def setPc (rb pc : ℕ) : State α := { s with parentColor := Function.update s.parentColor rb pc }

def setChild (d : Dir) (rb new : ℕ) : State α :=
  { s with child := Function.update s.child d (Function.update (s.child d) rb new) }

def setRoot (new : ℕ) : State α := { s with root := new }

def augment (a : α) : State α := { s with aug := a }

def rbSetParentColor (rb p color : ℕ) : State α := s.setPc rb (p ||| color)
def rbSetBlack (rb : ℕ) : State α := s.setPc rb (s.parentColor rb ||| RB_BLACK)
def rbSetParent (rb p : ℕ) : State α := s.setPc rb (s.parentColor rb % 2 ||| p)

/-- `if (tmp) rb_set_parent_color(tmp, p, RB_BLACK);` -/
def adoptBlack (tmp p : ℕ) : State α :=
  if tmp ≠ 0 then s.rbSetParentColor tmp p RB_BLACK else s

/-- `if (tmp) rb_set_parent(tmp, p);` -/
def adopt (tmp p : ℕ) : State α :=
  if tmp ≠ 0 then s.rbSetParent tmp p else s

def rbChangeChild (old new parent : ℕ) : State α :=
  if parent ≠ 0 then
    if s.child .left parent = old then s.setChild .left parent new
    else s.setChild .right parent new
  else s.setRoot new

def rbRotateSetParents (old new color : ℕ) : State α :=
  let parent := s.rbParent old
  let s := s.setPc new (s.parentColor old)
  let s := s.rbSetParentColor old new color
  s.rbChangeChild old new parent

end State

/-! ### Insertion -/

/-- The place `rb_link` points to: `&root->rb_node`, or a child field of the parent. -/
inductive Link
  | root
  | child (d : Dir) (parent : ℕ)

/-- `rb_link_node`; the parent is `NULL` exactly when the link is the root's. -/
def rbLinkNode {α : Type} (s : State α) (node : ℕ) : Link → State α
  | .root => (((s.setPc node 0).setChild .right node 0).setChild .left node 0).setRoot node
  | .child d parent =>
    (((s.setPc node parent).setChild .right node 0).setChild .left node 0).setChild d parent node

variable {α : Type} (cb : AugmentCallbacks α)

/-- Case 1: the uncle `tmp` is red. The state, and the parent of `gparent`, where the loop goes
on. -/
def insertFlip (s : State α) (parent gparent tmp : ℕ) : State α × ℕ :=
  let s := s.rbSetParentColor tmp gparent RB_BLACK
  let s := s.rbSetParentColor parent gparent RB_BLACK
  let parent := s.rbParent gparent
  (s.rbSetParentColor gparent parent RB_RED, parent)

/-- Case 2: `node` is the inner child of `parent`, the `d` child of the grandparent. -/
def insertInner (s : State α) (d : Dir) (node parent : ℕ) : State α :=
  let tmp := s.child d node
  let s := s.setChild d.flip parent tmp
  let s := s.setChild d node parent
  let s := s.adoptBlack tmp parent
  let s := s.rbSetParentColor parent node RB_RED
  s.augment (cb.rotate s parent node)

/-- Case 3: rotation at `gparent`; `tmp` is the inner child of `parent`. -/
def insertOuter (s : State α) (d : Dir) (parent gparent tmp : ℕ) : State α :=
  let s := s.setChild d gparent tmp
  let s := s.setChild d.flip parent gparent
  let s := s.adoptBlack tmp gparent
  let s := s.rbRotateSetParents gparent parent RB_RED
  s.augment (cb.rotate s gparent parent)

/-- Cases 2 and 3 on the side `d`: the state, and the value of the variable `parent`. -/
def insertRotate (s : State α) (d : Dir) (node parent gparent : ℕ) : State α × ℕ :=
  let tmp := s.child d.flip parent
  if node = tmp then
    let s := insertInner cb s d node parent
    (insertOuter cb s d node gparent (s.child d.flip node), node)
  else (insertOuter cb s d parent gparent tmp, parent)

/-- The loop of `__rb_insert`. -/
def rbInsertLoop : ℕ → State α → (node parent : ℕ) → Option (State α)
  | 0, _, _, _ => none
  | n + 1, s, node, parent =>
    if parent = 0 then some (s.rbSetParentColor node 0 RB_BLACK)
    else if s.rbIsBlack parent then some s
    else
      let gparent := s.rbRedParent parent
      let tmp := s.child .right gparent
      if parent ≠ tmp then
        if tmp ≠ 0 ∧ s.rbIsRed tmp then
          let (s, parent) := insertFlip s parent gparent tmp
          rbInsertLoop n s gparent parent
        else some (insertRotate cb s .left node parent gparent).1
      else
        let tmp := s.child .left gparent
        if tmp ≠ 0 ∧ s.rbIsRed tmp then
          let (s, parent) := insertFlip s parent gparent tmp
          rbInsertLoop n s gparent parent
        else
          -- this branch does not `break`: the loop looks at the same node once more
          let (s, parent) := insertRotate cb s .right node parent gparent
          rbInsertLoop n s node parent

/-- `__rb_insert` without the cached leftmost node, which its callers here do not ask for. -/
def rbInsert (fuel : ℕ) (s : State α) (node : ℕ) : Option (State α) :=
  rbInsertLoop cb fuel s node (s.rbRedParent node)

def rbInsertColor (fuel : ℕ) (s : State α) (node : ℕ) : Option (State α) :=
  rbInsert dummyCallbacks fuel s node

/-! ### Erasure -/

/-- Case 1: the sibling is red; rotation at `parent`. The state and the new sibling. -/
def eraseRedSibling (s : State α) (d : Dir) (parent sibling : ℕ) : State α × ℕ :=
  let tmp1 := s.child d sibling
  let s := s.setChild d.flip parent tmp1
  let s := s.setChild d sibling parent
  let s := s.rbSetParentColor tmp1 parent RB_BLACK
  let s := s.rbRotateSetParents parent sibling RB_RED
  (s.augment (cb.rotate s parent sibling), tmp1)

/-- Case 3: rotation at `sibling`, whose inner child `tmp2` is red. -/
def eraseInner (s : State α) (d : Dir) (parent sibling tmp2 : ℕ) : State α :=
  let tmp1 := s.child d.flip tmp2
  let s := s.setChild d sibling tmp1
  let s := s.setChild d.flip tmp2 sibling
  let s := s.setChild d.flip parent tmp2
  let s := s.adoptBlack tmp1 sibling
  s.augment (cb.rotate s sibling tmp2)

/-- Case 4: rotation at `parent`; `tmp1` is the outer child of `sibling`. -/
def eraseOuter (s : State α) (d : Dir) (parent sibling tmp1 : ℕ) : State α :=
  let tmp2 := s.child d sibling
  let s := s.setChild d.flip parent tmp2
  let s := s.setChild d sibling parent
  let s := s.rbSetParentColor tmp1 sibling RB_BLACK
  let s := s.adopt tmp2 parent
  let s := s.rbRotateSetParents parent sibling RB_BLACK
  s.augment (cb.rotate s parent sibling)

/-- The cases after the first. `some` node: the deficit has moved up to it. -/
def eraseBlackSibling (s : State α) (d : Dir) (parent sibling : ℕ) : State α × Option ℕ :=
  let tmp1 := s.child d.flip sibling
  if tmp1 = 0 ∨ s.rbIsBlack tmp1 then
    let tmp2 := s.child d sibling
    if tmp2 = 0 ∨ s.rbIsBlack tmp2 then
      -- Case 2: sibling colour flip
      let s := s.rbSetParentColor sibling parent RB_RED
      if s.rbIsRed parent then (s.rbSetBlack parent, none) else (s, some parent)
    else (eraseOuter cb (eraseInner cb s d parent sibling tmp2) d parent tmp2 sibling, none)
  else (eraseOuter cb s d parent sibling tmp1, none)

/-- One round of `____rb_erase_color`, on the side `d` of `parent` that `node` is on. -/
def eraseColorRound (s : State α) (d : Dir) (parent : ℕ) : State α × Option ℕ :=
  let sibling := s.child d.flip parent
  if s.rbIsRed sibling then
    let (s, sibling) := eraseRedSibling cb s d parent sibling
    eraseBlackSibling cb s d parent sibling
  else eraseBlackSibling cb s d parent sibling

/-- The loop of `____rb_erase_color`. -/
def rbEraseColorLoop : ℕ → State α → (node parent : ℕ) → Option (State α)
  | 0, _, _, _ => none
  | n + 1, s, node, parent =>
    let d := if node ≠ s.child .right parent then Dir.left else Dir.right
    match eraseColorRound cb s d parent with
    | (s, none) => some s
    | (s, some node) =>
      let parent := s.rbParent node
      if parent ≠ 0 then rbEraseColorLoop n s node parent else some s

/-- `do { parent = successor; successor = tmp; tmp = tmp->rb_left; } while (tmp);` -/
def findSuccessor (s : State α) : ℕ → (successor tmp : ℕ) → Option (ℕ × ℕ)
  | 0, _, _ => none
  | n + 1, parent, successor =>
    let tmp := s.child .left successor
    if tmp ≠ 0 then findSuccessor s n successor tmp else some (parent, successor)

/-- The part of `__rb_erase_augmented` that both shapes with a successor share. -/
def eraseSplice (s : State α) (node parent successor child2 : ℕ) : State α × ℕ :=
  let tmp := s.child .left node
  let s := s.setChild .left successor tmp
  let s := s.rbSetParent tmp successor
  let pc := s.parentColor node
  let s := s.rbChangeChild node successor (pcParent pc)
  let (s, rebalance) :=
    if child2 ≠ 0 then
      ((s.setPc successor pc).rbSetParentColor child2 parent RB_BLACK, 0)
    else
      let pc2 := s.parentColor successor
      (s.setPc successor pc, if pcIsBlack pc2 then parent else 0)
  (s.augment (cb.propagate s successor 0), rebalance)

/-- `__rb_erase_augmented`: the state, and the node to rebalance at (`0` for none). -/
def rbEraseAugmented (fuel : ℕ) (s : State α) (node : ℕ) : Option (State α × ℕ) :=
  let child := s.child .right node
  let tmp := s.child .left node
  if tmp = 0 then
    let pc := s.parentColor node
    let parent := pcParent pc
    let s := s.rbChangeChild node child parent
    let (s, rebalance) :=
      if child ≠ 0 then (s.setPc child pc, 0) else (s, if pcIsBlack pc then parent else 0)
    some (s.augment (cb.propagate s parent 0), rebalance)
  else if child = 0 then
    let pc := s.parentColor node
    let s := s.setPc tmp pc
    let parent := pcParent pc
    let s := s.rbChangeChild node tmp parent
    some (s.augment (cb.propagate s parent 0), 0)
  else
    let tmp := s.child .left child
    if tmp = 0 then
      let s := s.augment (cb.copy s node child)
      some (eraseSplice cb s node child child (s.child .right child))
    else do
      let (parent, successor) ← findSuccessor s fuel child tmp
      let child2 := s.child .right successor
      let s := s.setChild .left parent child2
      let s := s.setChild .right successor child
      let s := s.rbSetParent child successor
      let s := s.augment (cb.copy s node successor)
      let s := s.augment (cb.propagate s parent successor)
      some (eraseSplice cb s node parent successor child2)

/-- `rb_erase`, for any callbacks. -/
def rbEraseWith (fuel : ℕ) (s : State α) (node : ℕ) : Option (State α) := do
  let (s, rebalance) ← rbEraseAugmented cb fuel s node
  if rebalance ≠ 0 then rbEraseColorLoop cb fuel s 0 rebalance else some s

def rbErase (fuel : ℕ) (s : State α) (node : ℕ) : Option (State α) :=
  rbEraseWith dummyCallbacks fuel s node

/-! ### Neighbours -/

/-- `while (node->rb_left) node = node->rb_left;` on the side `d`. -/
def descend (s : State α) (d : Dir) : ℕ → ℕ → Option ℕ
  | 0, _ => none
  | n + 1, node => if s.child d node ≠ 0 then descend s d n (s.child d node) else some node

/-- `while ((parent = rb_parent(node)) && node == parent->rb_left) node = parent;` on the side `d`:
the last `parent`. -/
def climb (s : State α) (d : Dir) : ℕ → ℕ → Option ℕ
  | 0, _ => none
  | n + 1, node =>
    let parent := s.rbParent node
    if parent ≠ 0 ∧ node = s.child d parent then climb s d n parent else some parent

/-- The next node on the side `d`, `0` for none. -/
def rbNeighbour (d : Dir) (fuel : ℕ) (s : State α) (node : ℕ) : Option ℕ :=
  if s.parentColor node = node then some 0
  else if s.child d node ≠ 0 then descend s d.flip fuel (s.child d node)
  else climb s d fuel node

def rbNext (fuel : ℕ) (s : State α) (node : ℕ) : Option ℕ := rbNeighbour .right fuel s node

def rbPrev (fuel : ℕ) (s : State α) (node : ℕ) : Option ℕ := rbNeighbour .left fuel s node

/-! ### Traversals -/

def rbFirst (fuel : ℕ) (s : State α) : Option ℕ :=
  if s.root = 0 then some 0 else descend s .left fuel s.root

def rbLast (fuel : ℕ) (s : State α) : Option ℕ :=
  if s.root = 0 then some 0 else descend s .right fuel s.root

def rbLeftDeepestNode (s : State α) : ℕ → ℕ → Option ℕ
  | 0, _ => none
  | n + 1, node =>
    if s.child .left node ≠ 0 then rbLeftDeepestNode s n (s.child .left node)
    else if s.child .right node ≠ 0 then rbLeftDeepestNode s n (s.child .right node)
    else some node

def rbNextPostorder (fuel : ℕ) (s : State α) (node : ℕ) : Option ℕ :=
  if node = 0 then some 0
  else
    let parent := s.rbParent node
    if parent ≠ 0 ∧ node = s.child .left parent ∧ s.child .right parent ≠ 0 then
      rbLeftDeepestNode s fuel (s.child .right parent)
    else some parent

def rbFirstPostorder (fuel : ℕ) (s : State α) : Option ℕ :=
  if s.root = 0 then some 0 else rbLeftDeepestNode s fuel s.root

def rbReplaceNode (s : State α) (victim new : ℕ) : State α :=
  let parent := s.rbParent victim
  let s := ((s.setPc new (s.parentColor victim)).setChild .right new (s.child .right victim)).setChild
    .left new (s.child .left victim)
  let s := s.adopt (s.child .left victim) new
  let s := s.adopt (s.child .right victim) new
  s.rbChangeChild victim new parent

/-- `for (n = first; n; n = next(n))`: the nodes the loop is at. -/
def visit (next : ℕ → Option ℕ) : ℕ → ℕ → Option (List ℕ)
  | 0, _ => none
  | n + 1, node =>
    if node = 0 then some []
    else do
      let rest ← visit next n (← next node)
      some (node :: rest)

end HardStack.Rbtree.Model
