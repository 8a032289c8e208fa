import Mathlib

/-! # The queue of `bus/fifo/share_fifo`

`fifo.c`. The nodes lie in one array, whose free entries a bitmap keeps; a `struct node *` is counted
in nodes, so that `node_list + index` is a sum, and `0` is `NULL`. A read or a write through `NULL` is
no step (`none`). -/

namespace HardStack.ShareFifo.Model

def NODE_NUM : ℕ := 256
def BITMAP_BYTES : ℕ := (NODE_NUM + 7) / 8

/-- `struct node`. -/
structure Node where
  index : ℕ
  base : ℕ
  size : ℕ
  next : ℕ
  deriving DecidableEq

/-- `struct head`. -/
structure Head where
  front : ℕ
  rear : ℕ
  deriving DecidableEq

/-- The shared memory, without the flags and the magic number. -/
structure Fifo where
  bitmapNode : ℕ → BitVec 8
  node : ℕ → Node
  fifoHead : Head

namespace Fifo

variable (s : Fifo)

/-- A write to a node. -/
def setNode (p : ℕ) (x : Node) : Fifo := { s with node := Function.update s.node p x }

/-- `p->next = q`. -/
def setNext (p q : ℕ) : Option Fifo :=
  if p = 0 then none else some (s.setNode p { s.node p with next := q })

end Fifo

/-- The loops of `bitmap_alloc`: the first byte with a clear bit, and the first such bit of it. -/
def bitmapSearch (bitmapNode : ℕ → BitVec 8) : Option (ℕ × ℕ) :=
  (List.range BITMAP_BYTES).findSome? fun i => (List.range 8).findSome? fun j =>
    if (bitmapNode i >>> j) &&& 1 = 0 then some (i, j) else none

/-- `bitmap_alloc`: the index, `none` for `-1`. -/
def bitmapAlloc (s : Fifo) : Option (Fifo × ℕ) :=
  (bitmapSearch s.bitmapNode).map fun r =>
    let byte := s.bitmapNode r.1 ||| (1 : BitVec 8) <<< r.2
    ({ s with bitmapNode := Function.update s.bitmapNode r.1 byte }, r.1 * 8 + r.2)

/-- `bitmap_free`. -/
def bitmapFree (s : Fifo) (offset : ℕ) : Fifo :=
  if offset ≥ BITMAP_BYTES * 8 then s
  else
    let i := offset / 8
    let j := offset % 8
    { s with bitmapNode := Function.update s.bitmapNode i (s.bitmapNode i &&& ~~~ ((1 : BitVec 8) <<< j)) }

/-- `fifo_init`. -/
def fifoInit : Fifo := ⟨fun _ => 0, fun _ => ⟨0, 0, 0, 0⟩, ⟨0, 0⟩⟩

section

variable (nodeList : ℕ)

/-- `alloc_node`: the node, `none` for `NULL`. -/
def allocNode (s : Fifo) : Option (Fifo × ℕ) :=
  (bitmapAlloc s).map fun r =>
    let node := nodeList + r.2
    (r.1.setNode node ⟨r.2, 0, 0, 0⟩, node)

def freeNode (s : Fifo) (node : ℕ) : Fifo := bitmapFree s (s.node node).index

/-- `InitLinkQueue`, with `base` the offset `MEM_OFFSET`: the error. -/
def initLinkQueue (MEM_OFFSET : ℕ) (s : Fifo) : Fifo × ℤ :=
  match allocNode nodeList s with
  | none => (s, -1)
  | some (s, p) =>
    let s := s.setNode p { s.node p with base := MEM_OFFSET, size := 0, next := 0 }
    ({ s with fifoHead := ⟨p, p⟩ }, 0)

/-- `IsQueueEmpty`. -/
def isQueueEmpty (s : Fifo) : Bool := s.fifoHead.front == s.fifoHead.rear

/-- `PushElement`: the error. -/
def pushElement (s : Fifo) (base size : ℕ) : Option (Fifo × ℤ) :=
  match allocNode nodeList s with
  | none => some (s, -1)
  | some (s, p) => do
    let s := s.setNode p { s.node p with base := base, size := size, next := 0 }
    let s ← s.setNext s.fifoHead.rear p
    some ({ s with fifoHead := { s.fifoHead with rear := p } }, 0)

/-- `PopElement`: the error, and `*pbase` and `*psize` where they are written. -/
def popElement (s : Fifo) : Option (Fifo × ℤ × Option (ℕ × ℕ)) :=
  if isQueueEmpty s then some (s, -1, none)
  else do
    let front := s.fifoHead.front
    if front = 0 then none
    let p := (s.node front).next
    if p = 0 then none
    let out := ((s.node p).base, (s.node p).size)
    let s ← s.setNext front (s.node p).next
    let s := if (s.node front).next = 0 then { s with fifoHead := { s.fifoHead with rear := front } }
      else s
    some (freeNode s p, 0, some out)

end

end HardStack.ShareFifo.Model
