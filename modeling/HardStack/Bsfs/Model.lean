import HardStack.Rbtree.Model
import HardStack.Lib.Forest

/-! # The nodes of `fs/kernfs/module/bsfs`

`dir.c`. A `struct bsfs_node *` is its address, `NULL` is `0`; what is freed is no longer on the heap,
and a call that follows a pointer off the heap has no result. The children of a directory are in the
red-black tree of `lib/rbtree.c`, whose links stand in the nodes; `siblings` holds them by the
directory. The loops take fuel, `NULL` is one of their results. The callers hold `bsfs_mutex`. -/

namespace HardStack.Bsfs.Model

open HardStack.Rbtree.Model (rbFirst rbNext rbErase)

/-- `INT_MIN + 1`. -/
def BS_DEACTIVATED_BIAS : ℤ := -2147483647

/-- `enum bsfs_node_type`. -/
inductive NodeType
  | dir
  | file
  | link
  deriving DecidableEq

/-- `struct bsfs_iattrs`, its two time stamps that are written here. -/
structure Iattrs where
  ctime : ℕ
  mtime : ℕ
  deriving DecidableEq

/-- `struct bsfs_node`; `activated` is the flag `BSFS_ACTIVATED`. -/
structure Node where
  count : ℤ
  active : ℤ
  parent : ℕ
  ns : ℕ
  hash : ℕ
  type : NodeType
  activated : Bool
  subdirs : ℕ
  target : ℕ
  ino : ℕ
  iattr : Option Iattrs
  deriving DecidableEq

/-- The nodes, and the `bsfs_root` they belong to: its `ino_idr`, and whether it is freed. -/
structure State where
  heap : ℕ → Option Node
  siblings : ℕ → Rbtree.Model.State Unit
  inoIdr : ℕ → ℕ
  rootFreed : Bool

/-- The node at an address is written. -/
def State.set (s : State) (kn : ℕ) (node : Node) : State :=
  { s with heap := Function.update s.heap kn (some node) }

/-- `bsfs_active`. -/
def Node.isActive (node : Node) : Bool := 0 ≤ node.active

/-! ### The walk -/

section

variable (fuel : ℕ) (s : State)

/-- The loop of `bsfs_leftmost_descendant`. -/
def leftmostLoop : ℕ → ℕ → Option ℕ
  | 0, _ => none
  | n + 1, pos => do
    let node ← s.heap pos
    if node.type ≠ .dir then some pos
    else
      let rbn ← rbFirst fuel (s.siblings pos)
      if rbn = 0 then some pos else leftmostLoop n rbn

/-- `bsfs_leftmost_descendant`. -/
def leftmostDescendant (pos : ℕ) : Option ℕ := leftmostLoop fuel s fuel pos

/-- `bsfs_next_descendant_post`. -/
def nextDescendantPost (pos root : ℕ) : Option ℕ :=
  if pos = 0 then leftmostDescendant fuel s root
  else if pos = root then some 0
  else do
    let node ← s.heap pos
    let rbn ← rbNext fuel (s.siblings node.parent) pos
    if rbn ≠ 0 then leftmostDescendant fuel s rbn else some node.parent

end

/-! ### Activation -/

/-- The body of the loop of `bsfs_activate`, with the nodes that it activates. -/
def activateNode (s : State) (pos : ℕ) : Option (State × List ℕ) := do
  let node ← s.heap pos
  if node.activated then some (s, [])
  else some (s.set pos { node with active := node.active - BS_DEACTIVATED_BIAS, activated := true }, [pos])

/-- The loop of `bsfs_activate` after `pos`. -/
def activateLoop (fuel kn : ℕ) : ℕ → State → ℕ → Option (State × List ℕ)
  | 0, _, _ => none
  | n + 1, s, pos => do
    let pos ← nextDescendantPost fuel s pos kn
    if pos = 0 then some (s, [])
    else
      let (s, now) ← activateNode s pos
      let (s, later) ← activateLoop fuel kn n s pos
      some (s, now ++ later)

/-- `bsfs_activate`. -/
def activate (fuel : ℕ) (s : State) (kn : ℕ) : Option (State × List ℕ) := activateLoop fuel kn fuel s 0

/-! ### References -/

/-- `bsfs_root`, which reads the parent, or the node itself where it has none. -/
def bsfsRoot (s : State) (kn : ℕ) : Option Unit := do
  let node ← s.heap kn
  let _ ← s.heap (if node.parent ≠ 0 then node.parent else kn)
  some ()

/-- `bsfs_get`. -/
def bsfsGet (s : State) (kn : ℕ) : Option State :=
  if kn = 0 then some s
  else do
    let node ← s.heap kn
    some (s.set kn { node with count := node.count + 1 })

/-- `atomic_dec_and_test` of the count. -/
def decAndTest (s : State) (kn : ℕ) : Option (Bool × State) := do
  let node ← s.heap kn
  some (decide (node.count - 1 = 0), s.set kn { node with count := node.count - 1 })

/-- `bsfs_put`, with what its label `repeat` does to a node without references. -/
def putWith (release : State → ℕ → Option State) (s : State) (kn : ℕ) : Option State :=
  if kn = 0 then some s
  else do
    let (zero, s) ← decAndTest s kn
    if zero then do
      let _ ← bsfsRoot s kn
      release s kn
    else some s

/-- `idr_remove` from the root's `ino_idr`. -/
def idrRemove (s : State) (ino : ℕ) : Option State :=
  if s.rootFreed then none else some { s with inoIdr := Function.update s.inoIdr ino 0 }

/-- `idr_destroy` and `kfree` of the root. -/
def destroyRoot (s : State) : Option State :=
  if s.rootFreed then none else some { s with inoIdr := fun _ => 0, rootFreed := true }

/-- The reference that a link holds. -/
def putTarget (release : State → ℕ → Option State) (s : State) (node : Node) : Option State :=
  if node.type = .link then putWith release s node.target else some s

/-- The label `repeat` of `bsfs_put`, with fuel for its rounds and the calls in them. -/
def putRepeat : ℕ → State → ℕ → Option State
  | 0, _, _ => none
  | n + 1, s, kn => do
    let node ← s.heap kn
    let s ← putTarget (putRepeat n) s node
    let node ← s.heap kn
    let s ← idrRemove s node.ino
    let s := { s with heap := Function.update s.heap kn none }
    if node.parent ≠ 0 then do
      let (zero, s) ← decAndTest s node.parent
      if zero then putRepeat n s node.parent else some s
    else destroyRoot s

/-- `bsfs_put`. -/
def bsfsPut (fuel : ℕ) (s : State) (kn : ℕ) : Option State := putWith (putRepeat fuel) s kn

/-! ### Removal -/

/-- `RB_EMPTY_NODE` of the node's links. -/
def rbEmptyNode (s : State) (node : Node) (kn : ℕ) : Bool := (s.siblings node.parent).parentColor kn = kn

/-- `bsfs_unlink_sibling`. -/
def unlinkSibling (fuel : ℕ) (s : State) (kn : ℕ) : Option (Bool × State) := do
  let node ← s.heap kn
  if rbEmptyNode s node kn then some (false, s)
  else do
    let par ← s.heap node.parent
    let s := if node.type = .dir then
      s.set node.parent { par with subdirs := (par.subdirs + (2 ^ 64 - 1)) % 2 ^ 64 } else s
    let rb ← rbErase fuel (s.siblings node.parent) kn
    some (true, { s with siblings := Function.update s.siblings node.parent (rb.setPc kn kn) })

/-- `bsfs_drain`, whose wait returns when no active reference is left. -/
def drain (s : State) (kn : ℕ) : Option State := do
  let _ ← bsfsRoot s kn
  let node ← s.heap kn
  some (s.set kn { node with active := BS_DEACTIVATED_BIAS })

/-- It is only called if the removed node `kn` has been activated. -/
def drainActivated (s : State) (kn pos : ℕ) : Option State := do
  let node ← s.heap kn
  if node.activated then drain s pos else some s

/-- The time stamps that `__bsfs_remove` writes when it has unlinked the node, with the time. -/
def stampTimes (now : ℕ) (s : State) (kn : ℕ) : Option State := do
  let node ← s.heap kn
  if node.parent = 0 then some s
  else do
    let par ← s.heap node.parent
    if par.iattr = none then some s
    else do
      let iattr ← node.iattr
      let s := s.set kn { node with iattr := some { iattr with ctime := now } }
      let par ← s.heap node.parent
      let psIattr ← par.iattr
      some (s.set node.parent { par with iattr := some { psIattr with mtime := psIattr.ctime } })

/-- The first loop of `__bsfs_remove` after `pos`. -/
def deactivateLoop (fuel kn : ℕ) : ℕ → State → ℕ → Option State
  | 0, _, _ => none
  | n + 1, s, pos => do
    let pos ← nextDescendantPost fuel s pos kn
    if pos = 0 then some s
    else do
      let node ← s.heap pos
      let s := if node.isActive then s.set pos { node with active := node.active + BS_DEACTIVATED_BIAS } else s
      deactivateLoop fuel kn n s pos

section

variable (fuel : ℕ) (now : ℕ → ℕ) (kn : ℕ)

/-- The condition `!pos->parent || bsfs_unlink_sibling(pos)`. -/
def detach (s : State) (pos : ℕ) : Option (Bool × State) := do
  let node ← s.heap pos
  if node.parent = 0 then some (true, s) else unlinkSibling fuel s pos

/-- The base reference is dropped if the node could be unlinked. -/
def dropBase (s : State) (pos : ℕ) : Option State := do
  let (unlinked, s) ← detach fuel s pos
  if unlinked then do
    let s ← stampTimes (now pos) s pos
    bsfsPut fuel s pos
  else some s

/-- A round of the second loop of `__bsfs_remove`, with the node that it is about. -/
def removeRound (s : State) : Option (State × ℕ) := do
  let pos ← leftmostDescendant fuel s kn
  let s ← bsfsGet s pos
  let s ← drainActivated s kn pos
  let s ← dropBase fuel now s pos
  let s ← bsfsPut fuel s pos
  some (s, pos)

def removeLoop : ℕ → State → Option State
  | 0, _ => none
  | n + 1, s => do
    let (s, pos) ← removeRound fuel now kn s
    if pos ≠ kn then removeLoop n s else some s

/-- `bsfs_remove`. -/
def bsfsRemove (s : State) : Option State :=
  if kn = 0 then some s
  else do
    let node ← s.heap kn
    if node.parent ≠ 0 ∧ rbEmptyNode s node kn then some s
    else do
      let s ← deactivateLoop fuel kn fuel s 0
      removeLoop fuel now kn fuel s

end

end HardStack.Bsfs.Model
