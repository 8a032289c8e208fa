import Mathlib

/-! # The trees of `Algorithem/tree/binary-tree/Class/Complete_BinaryTree`

`binary.c`. A tree is its nodes; the cursor `counter` and the `static` counter of the leaves are handed
on from call to call. The recursion of the reader takes its fuel, and reading past the data is no step
(`none`). -/

namespace HardStack.BinaryTree.Model

/-- `struct binary_node`; `nil` is `NULL`. -/
inductive Node
  | nil
  | node (idx : ℤ) (left right : Node)
  deriving DecidableEq

/-- `Preorder_Create_BinaryTree`: the tree, and the cursor afterwards. -/
def preorderCreate (data : List ℤ) : ℕ → ℕ → Option (Node × ℕ)
  | 0, _ => none
  | fuel + 1, counter => do
    let ch ← data[counter]?
    let counter := counter + 1
    if ch = -1 then some (.nil, counter)
    else
      let (left, counter) ← preorderCreate data fuel counter
      let (right, counter) ← preorderCreate data fuel counter
      some (.node ch left right, counter)

/-- `BinaryTree_Deep`. -/
def deep : Node → ℕ
  | .nil => 0
  | .node _ left right =>
    let leftdeep := deep left
    let rightdeep := deep right
    if rightdeep ≤ leftdeep then leftdeep + 1 else leftdeep + 1

/-- `BinaryTree_LeafCount`: the `static` counter afterwards, which is the result. -/
def leafCount : Node → ℕ → ℕ
  | .nil, count => count
  | .node _ left right, count =>
    let count := if left = .nil ∧ right = .nil then count + 1 else count
    let count := leafCount left count
    leafCount right count

/-- A call of one of the two measures. -/
inductive Call
  | deep (tree : Node)
  | leafCount (tree : Node)

def Call.tree : Call → Node
  | deep tree => tree
  | leafCount tree => tree

end HardStack.BinaryTree.Model
