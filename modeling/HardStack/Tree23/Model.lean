import Mathlib
import HardStack.Lib.HeapProgram

/-! # The 2-3 tree of `Algorithem/tree/2-3-tree/Basic`

`tree23.c`. The functions are programs on the nodes of the static pools of `modmem`; a null or
dangling pointer is a fault. The values are of a type of floats, of which only the conversions and
the comparisons are used. A function that calls itself and a loop carry fuel. -/

namespace HardStack.Tree23.Model

open HardStack.Lib.HeapProgram

/-- A node of a pool: the buffer and the index in it. -/
structure Addr where
  buf : ℕ
  ndx : ℕ
  deriving DecidableEq

/-- `struct tree23_node`; `none` is `NULL`. -/
structure Node where
  left : Option Addr
  middle : Option Addr
  midRight : Option Addr
  right : Option Addr
  parent : Option Addr
  ldata : ℤ
  mdata : ℤ
  rdata : ℤ
  is2node : Bool
  is3node : Bool
  is4node : Bool
  deriving DecidableEq

/-- A node of zeros. -/
def Node.zero : Node := ⟨none, none, none, none, none, 0, 0, 0, false, false, false⟩

/-- `enum dir`. -/
inductive Direction
  | left
  | middle
  | right
  | noParent
  | error
  deriving DecidableEq

/-- The conversions between `int` and `float` and the comparisons of floats. -/
structure Floats (F : Type) where
  ofInt : ℤ → F
  toInt : F → ℤ
  lt : F → F → Bool
  le : F → F → Bool
  eq : F → F → Bool

variable {F : Type} (fl : Floats F)

/-! ### Insertion -/

/-- `simpleswap`, on the node. -/
def simpleswap (val : F) (n : Node) : Node :=
  let n :=
    if fl.lt (fl.ofInt n.ldata) val then { n with rdata := fl.toInt val }
    else { n with rdata := n.ldata, ldata := fl.toInt val }
  { n with is2node := false, is3node := true }

/-- `swapsort`, on the node. -/
def swapsort (val : F) (n : Node) : Node :=
  if fl.lt (fl.ofInt n.ldata) val && fl.le val (fl.ofInt n.rdata) then
    { n with mdata := fl.toInt val }
  else if fl.le val (fl.ofInt n.ldata) then
    { n with mdata := n.ldata, ldata := fl.toInt val }
  else
    { n with mdata := n.rdata, rdata := fl.toInt val }

/-- The children of a new node get it as their parent. -/
def adoptBoth (newNode : Option Addr) : Program Addr Node Unit := do
  let x ← load newNode
  if x.left.isSome then
    store x.left fun c => { c with parent := newNode }
    store x.right fun c => { c with parent := newNode }
  else pure ()

/-- The split of an overflown node whose parent is a 2-node. -/
def splitUnder2 (n parent : Option Addr) (promotedVal : F) (dir : Direction) :
    Program Addr Node Unit := do
  store parent (simpleswap fl promotedVal)
  let newNode ← get
  store newNode fun x => { x with parent := parent }
  store parent fun x => { x with middle := newNode }
  let x ← load n
  match dir with
  | .left =>
    store newNode fun y => { y with ldata := x.rdata, left := x.midRight, right := x.right }
    adoptBoth newNode
    store n fun x => { x with right := x.middle }
  | .right =>
    store newNode fun y => { y with ldata := x.ldata }
    store n fun x => { x with ldata := x.rdata }
    store newNode fun y => { y with left := x.left, right := x.middle }
    adoptBoth newNode
    store n fun x => { x with left := x.midRight }
  | _ => pure ()
  store n fun x => { x with midRight := none, middle := none, rdata := 0 }
  store newNode fun y => { y with is2node := true }

/-- The split of an overflown node whose parent is a 3-node, which overflows. -/
def splitUnder3 (n parent : Option Addr) (promotedVal : F) (dir : Direction) :
    Program Addr Node Unit := do
  store parent fun x => { swapsort fl promotedVal x with is4node := true }
  let newNode ← get
  store newNode fun x => { x with parent := parent }
  let x ← load n
  match dir with
  | .left =>
    store parent fun p => { p with midRight := p.middle, middle := newNode }
    store newNode fun y => { y with ldata := x.rdata, left := x.midRight, right := x.right }
    adoptBoth newNode
    store n fun x => { x with right := x.middle }
  | .middle =>
    store parent fun p => { p with midRight := newNode }
    store newNode fun y => { y with ldata := x.rdata, left := x.midRight, right := x.right }
    adoptBoth newNode
    store n fun x => { x with right := x.middle }
  | .right =>
    store parent fun p => { p with midRight := newNode }
    store newNode fun y => { y with ldata := x.ldata }
    store n fun x => { x with ldata := x.rdata }
    store newNode fun y => { y with left := x.left, right := x.middle }
    adoptBoth newNode
    store n fun x => { x with left := x.midRight }
  | _ => pure ()
  store n fun x => { x with rdata := 0, middle := none, midRight := none }
  store newNode fun y => { y with is2node := true }

/-- `minsert`. -/
def minsert (val : F) : ℕ → Option Addr → Direction → Program Addr Node Unit
  | 0, _, _ => fault
  | fuel + 1, n, dir => do
    let x ← load n
    if x.left.isSome || x.right.isSome then
      if fl.lt val (fl.ofInt x.ldata) then minsert val fuel x.left .left
      else if x.middle.isSome && fl.lt val (fl.ofInt x.rdata) then
        minsert val fuel x.middle .middle
      else minsert val fuel x.right .right
    else if x.is2node && x.left.isNone then store n (simpleswap fl val)
    else
      store n (swapsort fl val)
      store n fun x => { x with is4node := true }
    -- the node may have overflown
    let x ← load n
    if x.is4node then
      let p ← load x.parent
      if p.is2node then splitUnder2 fl n x.parent (fl.ofInt x.mdata) dir
      else splitUnder3 fl n x.parent (fl.ofInt x.mdata) dir
      store n fun x => { x with mdata := 0, is2node := true, is3node := false, is4node := false }
    else pure ()

/-- The root has overflown: a new root and a new right node. -/
def growRoot (n : Option Addr) : Program Addr Node (Option Addr) := do
  let newRoot ← get
  store n fun x => { x with parent := newRoot }
  let x ← load n
  store newRoot fun r => { r with ldata := x.mdata, is2node := true }
  store n fun x => { x with mdata := 0 }
  store newRoot fun r => { r with left := n }
  let newRight ← get
  store newRoot fun r => { r with right := newRight }
  store newRight fun y => { y with parent := newRoot, ldata := x.rdata, is2node := true }
  store n fun x => { x with rdata := 0, is4node := false, is3node := false, is2node := true }
  store newRight fun y => { y with left := x.midRight, right := x.right }
  store n fun x => { x with right := x.middle, middle := none, midRight := none }
  let y ← load newRight
  store y.left fun c => { c with parent := newRight }
  store y.right fun c => { c with parent := newRight }
  pure newRoot

/-- A full root without children: the first inner node. -/
def splitRoot (val : F) (n : Option Addr) : Program Addr Node (Option Addr) := do
  let newRoot ← get
  store newRoot fun r => { r with left := n }
  store n (swapsort fl val)
  let newRight ← get
  store n fun x => { x with parent := newRoot }
  store newRight fun y => { y with parent := newRoot }
  let x ← load n
  store newRoot fun r => { r with ldata := x.mdata, is2node := true }
  store n fun x => { x with mdata := 0 }
  store newRoot fun r => { r with right := newRight }
  store newRight fun y => { y with ldata := x.rdata, is2node := true }
  store n fun x => { x with rdata := 0, is3node := false, is2node := true }
  pure newRoot

/-- `tree23_insert`; the result is `root->root` afterwards. -/
def tree23Insert (fuel : ℕ) (val : F) (n : Option Addr) : Program Addr Node (Option Addr) := do
  let x ← load n
  if x.left.isSome || x.right.isSome then
    if fl.lt val (fl.ofInt x.ldata) then minsert fl val fuel x.left .left
    else if x.middle.isSome && fl.lt val (fl.ofInt x.rdata) then
      minsert fl val fuel x.middle .middle
    else minsert fl val fuel x.right .right
  else pure ()
  let x ← load n
  if x.is4node && x.midRight.isSome then growRoot n
  else if x.is3node && x.left.isNone then splitRoot fl val n
  else if !x.is2node && x.left.isNone then
    store n fun x => { x with ldata := fl.toInt val, is2node := true }
    pure n
  else if x.is2node && x.left.isNone then
    store n (simpleswap fl val)
    pure n
  else pure n

/-! ### Removal -/

/-- `discern_childhood`. -/
def discernChildhood (child parent : Option Addr) : Program Addr Node Direction :=
  match parent with
  | none => pure .noParent
  | some _ => do
    let p ← load parent
    if child = p.left then pure .left
    else if child = p.right then pure .right
    else if child = p.middle then pure .middle
    else pure .error

/-- A child that is there gets a new parent. -/
def adopt (child parent : Option Addr) : Program Addr Node Unit :=
  if child.isSome then store child fun c => { c with parent := parent } else pure ()

/-- The first loop of `mrmval`: `prev`, `node_to_swap` and `val_to_switch` at its end. -/
def dive (val : F) : ℕ → Option Addr → Option Addr → Option Addr → Direction →
    Program Addr Node (Option Addr × Option Addr × Direction)
  | 0, _, _, _, _ => fault
  | _ + 1, none, prev, nodeToSwap, valToSwitch => pure (prev, nodeToSwap, valToSwitch)
  | fuel + 1, some a, _, nodeToSwap, valToSwitch => do
    let curr := some a
    let x ← load curr
    if fl.eq (fl.ofInt x.ldata) val || x.is3node && fl.eq (fl.ofInt x.rdata) val then
      if fl.eq (fl.ofInt x.ldata) val then dive val fuel x.left curr curr .left
      else dive val fuel x.right curr curr .right
    else if nodeToSwap.isNone then
      if fl.lt val (fl.ofInt x.ldata) then dive val fuel x.left curr nodeToSwap valToSwitch
      else if x.is3node && fl.lt val (fl.ofInt x.rdata) then
        dive val fuel x.middle curr nodeToSwap valToSwitch
      else dive val fuel x.right curr nodeToSwap valToSwitch
    else if valToSwitch = .left then dive val fuel x.right curr nodeToSwap valToSwitch
    else if valToSwitch = .right then dive val fuel x.left curr nodeToSwap valToSwitch
    else dive val fuel curr curr nodeToSwap valToSwitch

/-- The switch after the first loop: the value is overwritten by the one of the leaf. -/
def switchVal (curr nodeToSwap : Option Addr) (valToSwitch : Direction) :
    Program Addr Node Unit := do
  let x ← load curr
  match valToSwitch with
  | .left =>
    if x.is3node then
      store nodeToSwap fun y => { y with ldata := x.rdata }
      store curr fun x => { x with rdata := 0, is2node := true, is3node := false }
    else
      store nodeToSwap fun y => { y with ldata := x.ldata }
      store curr fun x => { x with ldata := 0, is2node := false }
  | _ =>
    if x.is3node then
      store nodeToSwap fun y => { y with rdata := x.ldata }
      store curr fun x => { x with ldata := x.rdata, rdata := 0, is2node := true, is3node := false }
    else
      store nodeToSwap fun y => { y with rdata := x.ldata }
      store curr fun x => { x with ldata := 0, is2node := false }

/-- The second loop goes on at a node, or `mrmval` returns. -/
inductive Next
  | again (curr : Option Addr)
  | done (result : Option Addr)

/-- An empty left child. -/
def fixLeft (curr parent : Option Addr) (p : Node) : Program Addr Node Next := do
  let mchild := p.middle
  let rchild := p.right
  if p.is3node then
    let m ← load mchild
    if m.is3node then
      store curr fun c => { c with ldata := p.ldata }
      store parent fun p => { p with ldata := m.ldata }
      store mchild fun m => { m with ldata := m.rdata, rdata := 0, is3node := false, is2node := true }
      store curr fun c => { c with is2node := true, right := m.left }
      adopt m.left curr
      store mchild fun m => { m with left := m.middle, middle := none }
      pure (.again curr)
    else
      let r ← load rchild
      if r.is3node then
        store curr fun c => { c with ldata := p.ldata }
        store parent fun p => { p with ldata := m.ldata }
        store mchild fun m => { m with ldata := p.rdata }
        store parent fun p => { p with rdata := r.ldata }
        store rchild fun r =>
          { r with ldata := r.rdata, rdata := 0, is3node := false, is2node := true }
        store curr fun c => { c with is2node := true, right := m.left }
        adopt m.left curr
        store mchild fun m => { m with left := m.right, right := r.left }
        adopt r.left mchild
        store rchild fun r => { r with left := r.middle, middle := none }
        pure (.again curr)
      else
        store curr fun c => { c with ldata := p.ldata, rdata := m.ldata }
        store parent fun p => { p with ldata := p.rdata, rdata := 0 }
        store curr fun c => { c with middle := m.left, right := m.right }
        if m.left.isSome && m.right.isSome then
          store m.left fun c => { c with parent := curr }
          store m.right fun c => { c with parent := curr }
        else pure ()
        store curr fun c => { c with is3node := true }
        store parent fun p => { p with is3node := false, is2node := true }
        del mchild
        store parent fun p => { p with middle := none }
        pure (.again curr)
  else
    let r ← load rchild
    if r.is3node then
      store curr fun c => { c with ldata := p.ldata }
      store parent fun p => { p with ldata := r.ldata }
      store rchild fun r => { r with ldata := r.rdata, rdata := 0, is3node := false, is2node := true }
      store curr fun c => { c with is2node := true, right := r.left }
      store rchild fun r => { r with left := r.middle, middle := none }
      adopt r.left curr
      pure (.again curr)
    else
      let c ← load curr
      store rchild fun r => { r with rdata := r.ldata, ldata := p.ldata }
      store parent fun p => { p with ldata := 0 }
      store rchild fun r =>
        { r with middle := r.left, is2node := false, is3node := true, left := c.left }
      adopt c.left rchild
      del curr
      store parent fun p => { p with is2node := false, left := none }
      let d ← discernChildhood parent p.parent
      match d with
      | .left =>
        store parent fun p => { p with left := p.right, right := none }
        pure (.again parent)
      | .middle =>
        store parent fun p => { p with middle := p.right, right := none }
        pure (.again parent)
      | .noParent => pure (.done rchild)
      | _ => pure (.again parent)

/-- An empty right child. -/
def fixRight (curr parent : Option Addr) (p : Node) : Program Addr Node Next := do
  let lchild := p.left
  let mchild := p.middle
  if p.is3node then
    let m ← load mchild
    if m.is3node then
      store curr fun c => { c with ldata := p.rdata }
      store parent fun p => { p with rdata := m.rdata }
      store mchild fun m => { m with rdata := 0, is3node := false, is2node := true }
      store curr fun c => { c with is2node := true, left := m.right }
      adopt m.right curr
      store mchild fun m => { m with right := m.middle, middle := none }
      pure (.again curr)
    else
      let l ← load lchild
      if l.is3node then
        store curr fun c => { c with ldata := p.rdata }
        store parent fun p => { p with rdata := m.ldata }
        store mchild fun m => { m with ldata := p.ldata }
        store parent fun p => { p with ldata := l.rdata }
        store lchild fun l => { l with rdata := 0, is3node := false, is2node := true }
        store curr fun c => { c with is2node := true, left := m.right }
        adopt m.right curr
        store mchild fun m => { m with right := m.left, left := l.right }
        adopt l.right mchild
        store lchild fun l => { l with right := l.middle, middle := none }
        pure (.again curr)
      else
        store curr fun c => { c with rdata := p.rdata, ldata := m.ldata }
        store parent fun p => { p with rdata := 0, is3node := false, is2node := true }
        store curr fun c => { c with is3node := true, middle := m.right }
        adopt m.right curr
        store curr fun c => { c with left := m.left }
        adopt m.left curr
        del mchild
        store parent fun p => { p with middle := none }
        pure (.again curr)
  else
    let l ← load lchild
    if l.is3node then
      store curr fun c => { c with ldata := p.ldata }
      store parent fun p => { p with ldata := l.rdata }
      store lchild fun l => { l with rdata := 0 }
      store curr fun c => { c with is2node := true }
      store lchild fun l => { l with is3node := false, is2node := true }
      store curr fun c => { c with left := l.right }
      adopt l.right curr
      store lchild fun l => { l with right := l.middle, middle := none }
      pure (.again curr)
    else
      let c ← load curr
      store lchild fun l => { l with rdata := p.ldata }
      store parent fun p => { p with ldata := 0 }
      store lchild fun l =>
        { l with middle := l.right, right := c.right, is2node := false, is3node := true }
      store parent fun p => { p with is2node := false }
      adopt c.right lchild
      del curr
      store parent fun p => { p with right := none }
      let d ← discernChildhood parent p.parent
      match d with
      | .right =>
        store parent fun p => { p with right := p.left, left := none }
        pure (.again parent)
      | .middle =>
        store parent fun p => { p with middle := p.left, left := none }
        pure (.again parent)
      | .noParent => pure (.done lchild)
      | _ => pure (.again parent)

/-- An empty middle child. -/
def fixMiddle (curr parent : Option Addr) (p : Node) : Program Addr Node Next := do
  let lchild := p.left
  let rchild := p.right
  let l ← load lchild
  if l.is3node then
    store curr fun c => { c with ldata := p.ldata }
    store parent fun p => { p with ldata := l.rdata }
    store lchild fun l => { l with rdata := 0, is3node := false, is2node := true }
    store curr fun c => { c with is2node := true, right := c.middle, middle := none, left := l.right }
    adopt l.right curr
    store lchild fun l => { l with right := l.middle, middle := none }
    pure (.again curr)
  else
    let r ← load rchild
    if r.is3node then
      store curr fun c => { c with ldata := p.rdata }
      store parent fun p => { p with rdata := r.ldata }
      store rchild fun r => { r with ldata := r.rdata, rdata := 0, is3node := false, is2node := true }
      store curr fun c =>
        { c with is2node := true, left := c.middle, middle := none, right := r.left }
      adopt r.left curr
      store rchild fun r => { r with left := r.middle, middle := none }
      pure (.again curr)
    else
      let c ← load curr
      store lchild fun l => { l with rdata := p.ldata }
      store parent fun p => { p with ldata := p.rdata, rdata := 0, is3node := false, is2node := true }
      store lchild fun l =>
        { l with is2node := false, is3node := true, middle := l.right, right := c.middle }
      adopt c.middle lchild
      del curr
      store parent fun p => { p with middle := none }
      pure (.again lchild)

/-- The second loop of `mrmval`: it goes on as long as the node is empty. -/
def fixUp : ℕ → Option Addr → Program Addr Node (Option Addr)
  | 0, _ => fault
  | fuel + 1, curr => do
    let x ← load curr
    if !x.is2node && !x.is3node then
      let p ← load x.parent
      let whichChild ← discernChildhood curr x.parent
      let next ← match whichChild with
        | .left => fixLeft curr x.parent p
        | .right => fixRight curr x.parent p
        | .middle => fixMiddle curr x.parent p
        | .error => pure (.done none)
        | .noParent => pure (.again curr)
      match next with
      | .again curr => fixUp fuel curr
      | .done result => pure result
    -- there is no `return` here in the source; it is taken as `NULL`
    else pure none

/-- `mrmval`. -/
def mrmval (fuel : ℕ) (val : F) (topNode : Option Addr) : Program Addr Node (Option Addr) := do
  let (curr, nodeToSwap, valToSwitch) ← dive fl val fuel topNode none none .middle
  if valToSwitch = .middle then pure none
  else
    switchVal curr nodeToSwap valToSwitch
    fixUp fuel curr

/-- `tree23_erase`; the result is `root->root` afterwards. -/
def tree23Erase (fuel : ℕ) (val : F) (topNode : Option Addr) : Program Addr Node (Option Addr) := do
  let x ← load topNode
  if x.left.isNone then
    if x.is3node then
      if fl.eq (fl.ofInt x.ldata) val then
        store topNode fun x =>
          { x with ldata := x.rdata, rdata := 0, is3node := false, is2node := true }
      else if fl.eq (fl.ofInt x.rdata) val then
        store topNode fun x => { x with rdata := 0, is3node := false, is2node := true }
      else pure ()
    else if x.is2node then
      if fl.eq (fl.ofInt x.ldata) val then
        store topNode fun x => { x with ldata := 0, is2node := false }
      else pure ()
    else pure ()
    pure topNode
  else
    let newRoot ← mrmval fl fuel val topNode
    if newRoot.isSome then
      let r ← load newRoot
      del r.parent
      store newRoot fun r => { r with parent := none }
      pure newRoot
    else pure topNode

/-! ### Traversal -/

/-- `tree23_print`: the values in the order they are printed. -/
def tree23Print : ℕ → Option Addr → Program Addr Node (List ℤ)
  | 0, _ => fault
  | fuel + 1, root => do
    let x ← load root
    let l ← if x.left.isSome then tree23Print fuel x.left else pure []
    let m ← if x.middle.isSome then tree23Print fuel x.middle else pure []
    let r ← if x.right.isSome then tree23Print fuel x.right else pure []
    pure (l ++ x.ldata :: m ++ (if x.is3node then [x.rdata] else []) ++ r)

/-- A tree as its nodes say. -/
inductive Shape
  | null
  | node (x : Node) (left middle right : Shape)

/-- The tree that is reached from a pointer. -/
def look : ℕ → Option Addr → Program Addr Node Shape
  | _, none => pure .null
  | 0, some _ => fault
  | fuel + 1, some a => do
    let x ← load (some a)
    let l ← look fuel x.left
    let m ← look fuel x.middle
    let r ← look fuel x.right
    pure (.node x l m r)

/-! ### The pools -/

/-- The heap, the static variables of `modmem`, and the `tree23_root`s. A block of the heap is a
buffer of nodes; `malloc` is the next block, and no block comes back. The capacities of `buffers` and
`delbuf`, which grow with them, are left out. -/
structure State where
  mem : Addr → Option Node
  malloc : ℕ
  bufSize : ℕ
  memBuf : Option ℕ
  bufNdx : ℕ
  buffers : List ℕ
  delbuf : List Addr
  roots : ℕ → Option (Option Addr)

/-- `malloc` and `memset` of a buffer. -/
def newBuffer (s : State) (size : ℕ) : State :=
  { s with
    mem := fun a => if a.buf = s.malloc then if a.ndx < size then some .zero else none else s.mem a
    malloc := s.malloc + 1
    memBuf := some s.malloc
    buffers := s.buffers ++ [s.malloc] }

/-- The first use of `modmem`. -/
def initBuffers (s : State) : State :=
  match s.memBuf with
  | none => newBuffer s s.bufSize
  | some _ => s

/-- `modmem(GET, NULL)`. -/
def modmemGet (s : State) : Addr × State :=
  let s := initBuffers s
  match s.delbuf with
  | a :: rest => (a, { s with delbuf := rest })
  | [] =>
    if s.bufSize < s.bufNdx + 1 then
      (⟨s.malloc, 0⟩, { newBuffer { s with bufSize := s.bufSize * 2 } (s.bufSize * 2) with
        bufNdx := 1 })
    else (⟨s.memBuf.getD 0, s.bufNdx⟩, { s with bufNdx := s.bufNdx + 1 })

/-- `modmem(DEL, node_to_clear)`; `none` is a fault. -/
def modmemDel (s : State) (nodeToClear : Option Addr) : Option State :=
  let s := initBuffers s
  match nodeToClear with
  | none => some s
  | some a =>
    if (s.mem a).isSome then
      some { s with delbuf := a :: s.delbuf, mem := Function.update s.mem a (some .zero) }
    else none

/-- `modmem(FREE, NULL)`: all buffers are freed and the variables are as at the start. -/
def modmemFree (s : State) : State :=
  let s := initBuffers s
  { s with
    mem := fun a => if a.buf ∈ s.buffers then none else s.mem a
    bufSize := 8192
    memBuf := none
    bufNdx := 0
    buffers := []
    delbuf := [] }

/-- The programs run on the heap and the pools. -/
def machine : Machine State Addr Node where
  load s a := s.mem a
  store s a n := { s with mem := Function.update s.mem a (some n) }
  get := modmemGet
  del := modmemDel

/-! ### The library -/

/-- The program is started had there been no tree yet. -/
def init : State where
  mem := fun _ => none
  malloc := 0
  bufSize := 8192
  memBuf := none
  bufNdx := 0
  buffers := []
  delbuf := []
  roots := fun _ => none

/-- `tree23_root_init`, for a new root. -/
def tree23RootInit (s : State) (r : ℕ) : State :=
  let (a, s) := modmemGet s
  { s with roots := Function.update s.roots r (some (some a)) }

/-- A function that works on the tree of a root, and its result as the new `root->root`. -/
def onRoot (f : Option Addr → Program Addr Node (Option Addr)) (s : State) (r : ℕ) : Option State := do
  let root ← s.roots r
  let (root, s) ← (f root).run machine s
  some { s with roots := Function.update s.roots r (some root) }

/-- `tree23_insert`. -/
def insert (fuel : ℕ) (val : F) (s : State) (r : ℕ) : Option State :=
  onRoot (tree23Insert fl fuel val) s r

/-- `tree23_erase`. -/
def erase (fuel : ℕ) (val : F) (s : State) (r : ℕ) : Option State :=
  onRoot (tree23Erase fl fuel val) s r

/-- `tree23_deltree`. -/
def tree23Deltree (s : State) (r : ℕ) : State :=
  let s := modmemFree s
  { s with roots := Function.update s.roots r none }

/-- What a traversal of a tree gives. -/
def onTree {α : Type} (f : Option Addr → Program Addr Node α) (s : State) (r : ℕ) : Option α := do
  let root ← s.roots r
  let (a, _) ← (f root).run machine s
  some a

/-! ### Runs -/

inductive Step : State → State → Prop
  | init {s : State} {r : ℕ} (hr : s.roots r = none) : Step s (tree23RootInit s r)
  | insert {s s' : State} {r fuel : ℕ} {val : F} (hs : insert fl fuel val s r = some s') : Step s s'
  | erase {s s' : State} {r fuel : ℕ} {val : F} (hs : erase fl fuel val s r = some s') : Step s s'
  | deltree {s : State} {r : ℕ} (hr : s.roots r ≠ none) : Step s (tree23Deltree s r)

/-- The states of all runs. -/
def Reachable (s : State) : Prop := Relation.ReflTransGen (Step fl) init s

end HardStack.Tree23.Model
