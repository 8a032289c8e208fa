import HardStack.Lib.Word

/-! # The radix tree of `Algorithem/tree/radix-tree/Basic`

`radix.c`, which `Algorithem/IDA/Basic` shares: insertion, lookup and deletion. Pointers and slot
contents are numbers; the low two bits of a slot's word tell a node from an item. `unsigned long` and
`BITS_PER_LONG` have `W` bits. `malloc` answers for the set of nodes in use, with `0` for a failure,
and the memory it gives is zeroed. Loops take fuel, and `none` means that a call does not return: the
fuel ran out or a `BUG_ON` was hit.

The field `root` of a node is written and never read, and `update_node` is `NULL` in every call; both
are left out. -/

namespace HardStack.Radix.Model

open HardStack.Lib.Word

def RADIX_TREE_MAP_SHIFT : ℕ := 6

def RADIX_TREE_MAP_SIZE : ℕ := 64

def RADIX_TREE_MAX_TAGS : ℕ := 3

def IDR_FREE : ℕ := 0

def ROOT_TAG_SHIFT : ℕ := 23

def ENOMEM : ℤ := 12

def EEXIST : ℤ := 17

structure Node where
  shift : ℕ
  offset : ℕ
  count : ℕ
  exceptional : ℕ
  parent : ℕ
  slots : ℕ → ℕ
  tags : ℕ → ℕ → ℕ

/-- The root, and the memory of the nodes in use. -/
structure Tree where
  gfpMask : ℕ
  rnode : ℕ
  node : ℕ → Node
  live : Finset ℕ

/-- A `void **slot`: the field `rnode` of the root, or a slot of a node. -/
inductive Slot
  | rnode
  | slots (node offset : ℕ)
  deriving DecidableEq, Repr

/-! ### Words -/

def isInternalNode (ptr : ℕ) : Prop := ptr % 4 = 1

instance (ptr : ℕ) : Decidable (isInternalNode ptr) := inferInstanceAs (Decidable (_ = _))

def exceptionalEntry (arg : ℕ) : Prop := arg / 2 % 2 = 1

instance (arg : ℕ) : Decidable (exceptionalEntry arg) := inferInstanceAs (Decidable (_ = _))

def nodeToEntry (ptr : ℕ) : ℕ := ptr ||| 1

/-- `ptr & ~RADIX_TREE_INTERNAL_NODE`. -/
def entryToNode (ptr : ℕ) : ℕ := ptr / 2 * 2

def RADIX_TREE_RETRY : ℕ := nodeToEntry 0

/-- A sum on `unsigned char`. -/
def addChar (c : ℕ) (d : ℤ) : ℕ := ((c + d) % 256).toNat

namespace Tree

def setNode (s : Tree) (n : ℕ) (f : Node → Node) : Tree :=
  { s with node := Function.update s.node n (f (s.node n)) }

def getSlot (s : Tree) : Slot → ℕ
  | .rnode => s.rnode
  | .slots n o => (s.node n).slots o

def setSlot (s : Tree) (slot : Slot) (item : ℕ) : Tree :=
  match slot with
  | .rnode => { s with rnode := item }
  | .slots n o => s.setNode n fun x => { x with slots := Function.update x.slots o item }

def setCount (s : Tree) (n : ℕ) (d : ℤ) : Tree :=
  s.setNode n fun x => { x with count := addChar x.count d }

def setExceptional (s : Tree) (n : ℕ) (d : ℤ) : Tree :=
  s.setNode n fun x => { x with exceptional := addChar x.exceptional d }

def setParent (s : Tree) (n parent : ℕ) : Tree := s.setNode n fun x => { x with parent := parent }

/-- `radix_tree_node_free`. -/
def free (s : Tree) (n : ℕ) : Tree := { s with live := s.live.erase n }

/-! ### Tags -/

def isIdr (s : Tree) : Prop := s.gfpMask &&& 4 ≠ 0

instance (s : Tree) : Decidable s.isIdr := inferInstanceAs (Decidable (_ ≠ _))

def rootTagSet (s : Tree) (tag : ℕ) : Tree :=
  { s with gfpMask := s.gfpMask ||| 2 ^ (tag + ROOT_TAG_SHIFT) }

def rootTagGet (s : Tree) (tag : ℕ) : Bool := s.gfpMask.testBit (tag + ROOT_TAG_SHIFT)

def rootTagClear (s : Tree) (tag : ℕ) : Tree :=
  { s with gfpMask := s.gfpMask &&& notW 32 (2 ^ (tag + ROOT_TAG_SHIFT)) }

def rootTagsGet (s : Tree) : ℕ := s.gfpMask / 2 ^ ROOT_TAG_SHIFT

def rootTagClearAll (s : Tree) : Tree := { s with gfpMask := s.gfpMask % 2 ^ ROOT_TAG_SHIFT }

end Tree

section

variable (W : ℕ)

def RADIX_TREE_TAG_LONGS : ℕ := (RADIX_TREE_MAP_SIZE + W - 1) / W

/-- Rewrite one word of a tag's bitmap. -/
def tagWord (s : Tree) (n tag idx : ℕ) (f : ℕ → ℕ) : Tree :=
  s.setNode n fun x => { x with
    tags := Function.update x.tags tag (Function.update (x.tags tag) idx (f (x.tags tag idx))) }

def tagSet (s : Tree) (n tag offset : ℕ) : Tree :=
  tagWord s n tag (offset / W) (· ||| 2 ^ (offset % W))

def tagClear (s : Tree) (n tag offset : ℕ) : Tree :=
  tagWord s n tag (offset / W) (· &&& notW W (2 ^ (offset % W)))

def tagGet (s : Tree) (n tag offset : ℕ) : Bool :=
  ((s.node n).tags tag (offset / W)).testBit (offset % W)

/-- `bitmap_fill(node->tags[tag], RADIX_TREE_MAP_SIZE)`. -/
def allTagSet (s : Tree) (n tag : ℕ) : Tree :=
  s.setNode n fun x => { x with
    tags := Function.update x.tags tag fun idx =>
      if idx < RADIX_TREE_TAG_LONGS W then 2 ^ W - 1 else x.tags tag idx }

def anyTagSet (s : Tree) (n tag : ℕ) : Bool :=
  (List.range (RADIX_TREE_TAG_LONGS W)).any fun idx => (s.node n).tags tag idx ≠ 0

def nodeTagSet (tag : ℕ) : ℕ → Tree → (node offset : ℕ) → Option Tree
  | 0, _, _, _ => none
  | k + 1, s, node, offset =>
    if node ≠ 0 then
      if tagGet W s node tag offset then some s
      else
        let s := tagSet W s node tag offset
        nodeTagSet tag k s (s.node node).parent (s.node node).offset
    else some (if s.rootTagGet tag then s else s.rootTagSet tag)

def nodeTagClear (tag : ℕ) : ℕ → Tree → (node offset : ℕ) → Option Tree
  | 0, _, _, _ => none
  | k + 1, s, node, offset =>
    if node ≠ 0 then
      if ¬ tagGet W s node tag offset then some s
      else
        let s := tagClear W s node tag offset
        if anyTagSet W s node tag then some s
        else nodeTagClear tag k s (s.node node).parent (s.node node).offset
    else some (if s.rootTagGet tag then s.rootTagClear tag else s)

/-! ### The height -/

def shiftMaxindex (shift : ℕ) : ℕ := (RADIX_TREE_MAP_SIZE * 2 ^ shift % 2 ^ W + 2 ^ W - 1) % 2 ^ W

/-- `radix_tree_load_root`: the largest index, and the shift above the root. -/
def radixTreeLoadRoot (s : Tree) : ℕ × ℕ :=
  if isInternalNode s.rnode then
    let node := entryToNode s.rnode
    (shiftMaxindex W (s.node node).shift, (s.node node).shift + RADIX_TREE_MAP_SHIFT)
  else (0, 0)

/-- `radix_tree_node_alloc`, with `0` for a `malloc` that failed. -/
def radixTreeNodeAlloc (malloc : Finset ℕ → ℕ) (s : Tree) (parent shift offset count : ℕ) :
    Option (Tree × ℕ) :=
  let ret := malloc s.live
  if isInternalNode ret then none
  else if ret = 0 then some (s, 0)
  else
    let node : Node :=
      ⟨shift % 256, offset % 256, count % 256, 0, parent, fun _ => 0, fun _ _ => 0⟩
    some ({ s with live := insert ret s.live, node := Function.update s.node ret node }, ret)

/-- `while (index > shift_maxindex(maxshift)) maxshift += RADIX_TREE_MAP_SHIFT;` -/
def extendShift (index : ℕ) : ℕ → ℕ → Option ℕ
  | 0, _ => none
  | k + 1, maxshift =>
    if index > shiftMaxindex W maxshift then extendShift index k (maxshift + RADIX_TREE_MAP_SHIFT)
    else some maxshift

/-- The tags of a new node on top. -/
def extendTags (s : Tree) (node : ℕ) : Tree :=
  if s.isIdr then
    let s := allTagSet W s node IDR_FREE
    if ¬ s.rootTagGet IDR_FREE then (tagClear W s node IDR_FREE 0).rootTagSet IDR_FREE else s
  else
    (List.range RADIX_TREE_MAX_TAGS).foldl
      (fun s tag => if s.rootTagGet tag then tagSet W s node tag 0 else s) s

/-- The `do` loop of `radix_tree_extend`, `-ENOMEM` or `0`. -/
def extendLoop (malloc : Finset ℕ → ℕ) (maxshift : ℕ) :
    ℕ → Tree → (shift entry : ℕ) → Option (Tree × ℤ)
  | 0, _, _, _ => none
  | k + 1, s, shift, entry => do
    let (s, node) ← radixTreeNodeAlloc malloc s 0 shift 0 1
    if node = 0 then some (s, -ENOMEM)
    else
      let s := extendTags W s node
      if shift > W then none
      else
        let s := if isInternalNode entry then s.setParent (entryToNode entry) node
          else if exceptionalEntry entry then s.setExceptional node 1 else s
        let s := s.setSlot (.slots node 0) entry
        let entry := nodeToEntry node
        let s := { s with rnode := entry }
        let shift := shift + RADIX_TREE_MAP_SHIFT
        if shift ≤ maxshift then extendLoop malloc maxshift k s shift entry else some (s, 0)

def radixTreeExtend (malloc : Finset ℕ → ℕ) (fuel : ℕ) (s : Tree) (index shift : ℕ) :
    Option (Tree × ℤ) := do
  let maxshift ← extendShift W index fuel shift
  if s.rnode = 0 ∧ (¬ s.isIdr ∨ s.rootTagGet IDR_FREE) then
    some (s, (maxshift + RADIX_TREE_MAP_SHIFT : ℕ))
  else
    let (s, error) ← extendLoop W malloc maxshift fuel s shift s.rnode
    if error < 0 then some (s, error) else some (s, (maxshift + RADIX_TREE_MAP_SHIFT : ℕ))

/-! ### Insertion -/

/-- The offset that `radix_tree_descend` takes. -/
def descendOffset (s : Tree) (parent index : ℕ) : ℕ :=
  index / 2 ^ (s.node parent).shift % RADIX_TREE_MAP_SIZE

/-- The loop of `__radix_tree_create` down to the slot of the index. -/
def createLoop (malloc : Finset ℕ → ℕ) (index order : ℕ) :
    ℕ → Tree → (shift child node offset : ℕ) → Slot → Option (Tree × ℤ × ℕ × Slot)
  | 0, _, _, _, _, _, _ => none
  | k + 1, s, shift, child, node, offset, slot =>
    -- a level down
    let down (s : Tree) (child shift : ℕ) :=
      let node := entryToNode child
      let offset := descendOffset s node index
      createLoop malloc index order k s shift ((s.node node).slots offset) node offset
        (.slots node offset)
    if shift > order then
      let shift := shift - RADIX_TREE_MAP_SHIFT
      if child = 0 then do
        let (s, child) ← radixTreeNodeAlloc malloc s node shift offset 0
        if child = 0 then some (s, -ENOMEM, 0, slot)
        else
          let s := s.setSlot slot (nodeToEntry child)
          let s := if node ≠ 0 then s.setCount node 1 else s
          down s child shift
      else if ¬ isInternalNode child then some (s, 0, node, slot)
      else down s child shift
    else some (s, 0, node, slot)

/-- `__radix_tree_create`: the error, the node and the slot. -/
def radixTreeCreate (malloc : Finset ℕ → ℕ) (fuel : ℕ) (s : Tree) (index order : ℕ) :
    Option (Tree × ℤ × ℕ × Slot) := do
  let (maxindex, shift) := radixTreeLoadRoot W s
  let max := index ||| (2 ^ order - 1)
  let max := if order > 0 ∧ max = 2 ^ order - 1 then (max + 1) % 2 ^ W else max
  if max > maxindex then
    let (s, error) ← radixTreeExtend W malloc fuel s max shift
    if error < 0 then some (s, error, 0, .rnode)
    else createLoop malloc index order fuel s error.toNat s.rnode 0 0 .rnode
  else createLoop malloc index order fuel s shift s.rnode 0 0 .rnode

/-- `insert_entires`: the entry goes into an empty slot only. -/
def insertEntires (s : Tree) (node : ℕ) (slot : Slot) (item : ℕ) : Tree × ℤ :=
  if s.getSlot slot ≠ 0 then (s, -EEXIST)
  else
    let s := s.setSlot slot item
    let s := if node ≠ 0 then
        let s := s.setCount node 1
        if exceptionalEntry item then s.setExceptional node 1 else s
      else s
    (s, 1)

/-- The offset of a slot in its node, `get_slot_offset`. -/
def getSlotOffset (node : ℕ) (slot : Slot) : ℕ :=
  if node = 0 then 0 else match slot with
    | .rnode => 0
    | .slots _ o => o

/-- `__radix_tree_insert`. -/
def radixTreeInsert (malloc : Finset ℕ → ℕ) (fuel : ℕ) (s : Tree) (index order item : ℕ) :
    Option (Tree × ℤ) := do
  if isInternalNode item then none
  else
    let (s, error, node, slot) ← radixTreeCreate W malloc fuel s index order
    if error ≠ 0 then some (s, error)
    else
      let (s, error) := insertEntires s node slot item
      if error < 0 then some (s, error)
      else if node ≠ 0 then
        let offset := getSlotOffset node slot
        if tagGet W s node 0 offset ∨ tagGet W s node 1 offset ∨ tagGet W s node 2 offset then none
        else some (s, 0)
      else if s.rootTagsGet ≠ 0 then none
      else some (s, 0)

/-! ### Lookup -/

/-- The descent of `__radix_tree_lookup`: the entry, its node and its slot. A `RADIX_TREE_RETRY`
starts again. -/
def lookupLoop (s : Tree) (index : ℕ) : ℕ → (node parent : ℕ) → Slot →
    Option (ℕ × ℕ × Option Slot)
  | 0, _, _, _ => none
  | k + 1, node, parent, slot =>
    if isInternalNode node then
      if node = RADIX_TREE_RETRY then
        if index > (radixTreeLoadRoot W s).1 then some (0, 0, none)
        else lookupLoop s index k s.rnode 0 .rnode
      else
        let parent := entryToNode node
        let offset := descendOffset s parent index
        lookupLoop s index k ((s.node parent).slots offset) parent (.slots parent offset)
    else some (node, parent, some slot)

/-- `__radix_tree_lookup`; the node and the slot stay unset where the index is out of range. -/
def radixTreeLookupSlot (fuel : ℕ) (s : Tree) (index : ℕ) : Option (ℕ × ℕ × Option Slot) :=
  if index > (radixTreeLoadRoot W s).1 then some (0, 0, none)
  else lookupLoop W s index fuel s.rnode 0 .rnode

def radixTreeLookup (fuel : ℕ) (s : Tree) (index : ℕ) : Option ℕ :=
  (radixTreeLookupSlot W fuel s index).map fun r => r.1

/-! ### Deletion -/

def replaceSlot (s : Tree) (slot : Slot) (item node : ℕ) (count exceptional : ℤ) : Tree :=
  if isInternalNode item then s
  else
    let s := if node ≠ 0 ∧ (count ≠ 0 ∨ exceptional ≠ 0) then
        (s.setCount node count).setExceptional node exceptional
      else s
    s.setSlot slot item

/-- `radix_tree_shrink`. -/
def radixTreeShrink : ℕ → Tree → (shrunk : Bool) → Option (Tree × Bool)
  | 0, _, _ => none
  | k + 1, s, shrunk =>
    if ¬ isInternalNode s.rnode then some (s, shrunk)
    else
      let node := entryToNode s.rnode
      let child := (s.node node).slots 0
      if (s.node node).count ≠ 1 then some (s, shrunk)
      else if child = 0 then some (s, shrunk)
      else if ¬ isInternalNode child ∧ (s.node node).shift ≠ 0 then some (s, shrunk)
      else
        let s := if isInternalNode child then s.setParent (entryToNode child) 0 else s
        let s := { s with rnode := child }
        let s := if s.isIdr ∧ ¬ tagGet W s node IDR_FREE 0 then s.rootTagClear IDR_FREE else s
        let s := s.setNode node fun x => { x with count := 0 }
        let s := if ¬ isInternalNode child then s.setSlot (.slots node 0) RADIX_TREE_RETRY else s
        radixTreeShrink k (s.free node) true

def deleteNode : ℕ → Tree → (node : ℕ) → (deleted : Bool) → Option (Tree × Bool)
  | 0, _, _, _ => none
  | k + 1, s, node, deleted =>
    if (s.node node).count ≠ 0 then
      if nodeToEntry node = s.rnode then do
        let (s, shrunk) ← radixTreeShrink W k s false
        some (s, deleted || shrunk)
      else some (s, deleted)
    else
      let parent := (s.node node).parent
      let s := if parent ≠ 0 then
          (s.setSlot (.slots parent (s.node node).offset) 0).setCount parent (-1)
        else
          let s := if ¬ s.isIdr then s.rootTagClearAll else s
          { s with rnode := 0 }
      let s := s.free node
      if parent ≠ 0 then deleteNode k s parent true else some (s, true)

/-- The tags of a slot that is emptied. -/
def deleteTags (fuel : ℕ) (s : Tree) (node offset : ℕ) : Option Tree :=
  if s.isIdr then nodeTagSet W IDR_FREE fuel s node offset
  else (List.range RADIX_TREE_MAX_TAGS).foldlM
    (fun s tag => nodeTagClear W tag fuel s node offset) s

/-- `__radix_tree_delete`. -/
def radixTreeDeleteSlot (fuel : ℕ) (s : Tree) (node : ℕ) (slot : Slot) : Option (Tree × Bool) := do
  let old := s.getSlot slot
  let exceptional : ℤ := if exceptionalEntry old then -1 else 0
  let offset := getSlotOffset node slot
  let s ← deleteTags W fuel s node offset
  let s := replaceSlot s slot 0 node (-1) exceptional
  if node ≠ 0 then deleteNode W fuel s node false else some (s, false)

def radixTreeDeleteItem (fuel : ℕ) (s : Tree) (index item : ℕ) : Option (Tree × ℕ) := do
  let (entry, node, slot) ← radixTreeLookupSlot W fuel s index
  match slot with
  | none => some (s, 0)
  | some slot =>
    let tag := if node ≠ 0 then tagGet W s node IDR_FREE (getSlotOffset node slot)
      else s.rootTagGet IDR_FREE
    if entry = 0 ∧ (¬ s.isIdr ∨ tag) then some (s, 0)
    else if item ≠ 0 ∧ entry ≠ item then some (s, 0)
    else do
      let (s, _) ← radixTreeDeleteSlot W fuel s node slot
      some (s, entry)

def radixTreeDelete (fuel : ℕ) (s : Tree) (index : ℕ) : Option (Tree × ℕ) :=
  radixTreeDeleteItem W fuel s index 0

end

end HardStack.Radix.Model
