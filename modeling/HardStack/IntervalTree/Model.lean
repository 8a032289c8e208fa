import HardStack.Rbtree.Model

/-! # The interval trees of `Algorithem/tree/interval-tree`

The tree of anonymous mappings and the tree of file mappings are one algorithm over two kinds of
node: a node of the first is a `struct anon_vma_chain` that points to its area, a node of the second
is the area itself. The red-black operations are those of `Rbtree.Model`; `rb_leftmost` of the cached
root and the two functions of the kernel that maintain it come on top.

`rb_subtree_last` is the data that the callbacks keep. The loop of the propagation callback takes
fuel; where it runs out, `ended` remembers that what was computed is not what the code computes. -/

namespace HardStack.IntervalTree.Model

open HardStack.Lib.RbTree HardStack.Rbtree.Model

/-- The fields of all `struct vm_area_struct`, and the area of a node: `avc->vma`, or the node. -/
structure Nodes where
  vmPgoff : ℕ → ℕ
  vmaPages : ℕ → ℕ
  vma : ℕ → ℕ

def vmaStartPgoff (A : Nodes) (v : ℕ) : ℕ := A.vmPgoff v

/-- `v->vm_pgoff + vma_pages(v) - 1` as an `unsigned long`. -/
@[irreducible] def vmaLastPgoff (A : Nodes) (v : ℕ) : ℕ := (A.vmPgoff v + A.vmaPages v + (2 ^ 64 - 1)) % 2 ^ 64

def startPgoff (A : Nodes) (node : ℕ) : ℕ := vmaStartPgoff A (A.vma node)

def lastPgoff (A : Nodes) (node : ℕ) : ℕ := vmaLastPgoff A (A.vma node)

/-- An interval of at least one page that does not wrap. -/
theorem vmaLastPgoff_eq {A : Nodes} {v : ℕ} (h : 0 < A.vmaPages v)
    (h' : A.vmPgoff v + A.vmaPages v ≤ 2 ^ 64) :
    vmaLastPgoff A v = A.vmPgoff v + A.vmaPages v - 1 := by
  unfold vmaLastPgoff
  omega

/-- `rb_subtree_last` of all nodes, and whether every propagation so far has come to its end. -/
structure SubtreeLast where
  last : ℕ → ℕ
  ended : Bool

def SubtreeLast.set (a : SubtreeLast) (node v : ℕ) : SubtreeLast :=
  { a with last := Function.update a.last node v }

@[simp] theorem SubtreeLast.last_set_self (a : SubtreeLast) (node v : ℕ) :
    (a.set node v).last node = v := by simp [set]

theorem SubtreeLast.last_set_of_ne (a : SubtreeLast) {node x : ℕ} (v : ℕ) (h : x ≠ node) :
    (a.set node v).last x = a.last x := by simp [set, h]

/-- `struct rb_root_cached`, with the nodes in memory. -/
structure RootCached where
  rbRoot : State SubtreeLast
  rbLeftmost : ℕ

/-- `RB_ROOT_CACHED`, over memory that holds anything. -/
def RB_ROOT_CACHED (s : State SubtreeLast) : RootCached :=
  ⟨RB_ROOT (s.augment { s.aug with ended := true }), 0⟩

section

variable (A : Nodes)

/-! ### Callbacks -/

/-- `if (max < subtree_last) max = subtree_last;`, for a child that exists. -/
def maxWithChild (s : State SubtreeLast) (max child : ℕ) : ℕ :=
  if child ≠ 0 then
    let subtreeLast := s.aug.last child
    if max < subtreeLast then subtreeLast else max
  else max

def computeSubtreeLast (s : State SubtreeLast) (node : ℕ) : ℕ :=
  let max := lastPgoff A node
  let max := maxWithChild s max (s.child .left node)
  maxWithChild s max (s.child .right node)

def augmentPropagate : ℕ → State SubtreeLast → (rb stop : ℕ) → SubtreeLast
  | 0, s, _, _ => { s.aug with ended := false }
  | n + 1, s, rb, stop =>
    if rb ≠ stop then
      let augmented := computeSubtreeLast A s rb
      if s.aug.last rb = augmented then s.aug
      else augmentPropagate n (s.augment (s.aug.set rb augmented)) (s.rbParent rb) stop
    else s.aug

def augmentCopy (s : State SubtreeLast) (old new : ℕ) : SubtreeLast :=
  s.aug.set new (s.aug.last old)

def augmentRotate (s : State SubtreeLast) (old new : ℕ) : SubtreeLast :=
  let s := s.augment (s.aug.set new (s.aug.last old))
  s.aug.set old (computeSubtreeLast A s old)

/-- `BiscuitOS_vma_interval_tree_augment`, and the same for anonymous mappings. -/
def augment (fuel : ℕ) : AugmentCallbacks SubtreeLast where
  propagate := augmentPropagate A fuel
  copy := augmentCopy
  rotate := augmentRotate A

/-! ### The cached root -/

def rbInsertAugmentedCached (fuel : ℕ) (root : RootCached) (node : ℕ) (newleft : Bool) :
    Option RootCached := do
  let leftmost := if newleft then node else root.rbLeftmost
  let s ← rbInsert (augment A fuel) fuel root.rbRoot node
  some ⟨s, leftmost⟩

def rbEraseAugmentedCached (fuel : ℕ) (root : RootCached) (node : ℕ) : Option RootCached := do
  let leftmost ← if root.rbLeftmost = node then rbNext fuel root.rbRoot node
    else some root.rbLeftmost
  let s ← rbEraseWith (augment A fuel) fuel root.rbRoot node
  some ⟨s, leftmost⟩

/-! ### Insertion and removal -/

/-- `*link`. -/
def deref (s : State SubtreeLast) : Link → ℕ
  | .root => s.root
  | .child d parent => s.child d parent

/-- `if (parent->rb_subtree_last < last) parent->rb_subtree_last = last;` -/
def raiseLast (s : State SubtreeLast) (parent last : ℕ) : State SubtreeLast :=
  if s.aug.last parent < last then s.augment (s.aug.set parent last) else s

/-- The loop of `interval_tree_insert`: the position, and the value of `leftmost`. -/
def insertWalk (start last : ℕ) : ℕ → State SubtreeLast → Link → Bool →
    Option (State SubtreeLast × Link × Bool)
  | 0, _, _, _ => none
  | n + 1, s, link, leftmost =>
    let parent := deref s link
    if parent ≠ 0 then
      let s := raiseLast s parent last
      if start < startPgoff A parent then insertWalk start last n s (.child .left parent) leftmost
      else insertWalk start last n s (.child .right parent) false
    else some (s, link, leftmost)

def intervalTreeInsert (fuel : ℕ) (root : RootCached) (node : ℕ) : Option RootCached := do
  let start := startPgoff A node
  let last := lastPgoff A node
  let (s, link, leftmost) ← insertWalk A start last fuel root.rbRoot .root true
  let s := s.augment (s.aug.set node last)
  let s := rbLinkNode s node link
  rbInsertAugmentedCached A fuel ⟨s, root.rbLeftmost⟩ node leftmost

/-- `none` also where a propagation has not come to its end. -/
def intervalTreeRemove (fuel : ℕ) (root : RootCached) (node : ℕ) : Option RootCached := do
  let root ← rbEraseAugmentedCached A fuel root node
  if root.rbRoot.aug.ended then some root else none

/-! ### Iteration -/

/-- The loop of `interval_tree_subtree_search`. -/
def subtreeSearch (start last : ℕ) : ℕ → State SubtreeLast → ℕ → Option ℕ
  | 0, _, _ => none
  | n + 1, s, node =>
    let left := s.child .left node
    if left ≠ 0 ∧ start ≤ s.aug.last left then subtreeSearch start last n s left
    else if startPgoff A node ≤ last then
      if start ≤ lastPgoff A node then some node
      else
        let right := s.child .right node
        if right ≠ 0 ∧ start ≤ s.aug.last right then subtreeSearch start last n s right else some 0
    else some 0

/-- `interval_tree_iter_first`; a plain root has no `rb_leftmost`, and then there is no test of it. -/
def iterFirst (start last fuel : ℕ) (s : State SubtreeLast) (leftmost : Option ℕ) : Option ℕ :=
  if s.root = 0 then some 0
  else if s.aug.last s.root < start then some 0
  else if leftmost.any fun l => last < startPgoff A l then some 0
  else subtreeSearch A start last fuel s s.root

/-- The loop of `interval_tree_iter_next`. The inner `do`-loop, which goes up until it comes from a
left child, is the loop of `rb_next`. -/
def iterNextLoop (start last : ℕ) : ℕ → State SubtreeLast → (node rb : ℕ) → Option ℕ
  | 0, _, _, _ => none
  | n + 1, s, node, rb =>
    if rb ≠ 0 ∧ start ≤ s.aug.last rb then subtreeSearch A start last n s rb
    else do
      let node ← climb s .right n node
      if node = 0 then some 0
      else if last < startPgoff A node then some 0
      else if start ≤ lastPgoff A node then some node
      else iterNextLoop start last n s node (s.child .right node)

def iterNext (start last fuel : ℕ) (s : State SubtreeLast) (node : ℕ) : Option ℕ :=
  iterNextLoop A start last fuel s node (s.child .right node)

/-- The rest of `interval_tree_foreach`: the nodes it visits from `node` on. -/
def foreachLoop (start last fuel : ℕ) (s : State SubtreeLast) : ℕ → ℕ → Option (List ℕ)
  | 0, _ => none
  | n + 1, node =>
    if node = 0 then some []
    else do
      let next ← iterNext A start last fuel s node
      let rest ← foreachLoop start last fuel s n next
      some (node :: rest)

def foreach (start last fuel : ℕ) (s : State SubtreeLast) (leftmost : Option ℕ) :
    Option (List ℕ) := do
  let node ← iterFirst A start last fuel s leftmost
  foreachLoop A start last fuel s fuel node

/-! ### Insertion after a node -/

/-- The `while (parent->rb_left)` loop of `interval_tree_insert_after`. -/
def leftmostWalk (last : ℕ) : ℕ → State SubtreeLast → ℕ → Option (State SubtreeLast × ℕ)
  | 0, _, _ => none
  | n + 1, s, parent =>
    let left := s.child .left parent
    if left ≠ 0 then leftmostWalk last n (raiseLast s left last) left else some (s, parent)

/-- `interval_tree_insert_after` on a plain root; `none` where `VM_BUG_ON_VMA` stops the kernel. -/
def insertAfter (fuel : ℕ) (s : State SubtreeLast) (node prev : ℕ) : Option (State SubtreeLast) := do
  let last := lastPgoff A node
  if startPgoff A node ≠ startPgoff A prev then none
  let right := s.child .right prev
  let (s, link) ←
    if right = 0 then some (s, Link.child .right prev)
    else do
      let (s, parent) ← leftmostWalk last fuel (raiseLast s right last) right
      some (s, Link.child .left parent)
  let s := s.augment (s.aug.set node last)
  let s := rbLinkNode s node link
  rbInsert (augment A fuel) fuel s node

/-- The same on a cached root, whose `rb_leftmost` it leaves alone. -/
def insertAfterCached (fuel : ℕ) (root : RootCached) (node prev : ℕ) : Option RootCached := do
  let s ← insertAfter A fuel root.rbRoot node prev
  some ⟨s, root.rbLeftmost⟩

end

end HardStack.IntervalTree.Model
