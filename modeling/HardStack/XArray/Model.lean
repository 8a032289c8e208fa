import HardStack.Lib.Bitmap
import HardStack.Lib.Word

/-! # The XArray of `Algorithem/xarray/Basic`

`xarray.c`: `xas_load`, `xas_store`, `xa_store` and `xa_erase`. Entries and pointers are numbers; the
low two bits tell an internal entry, and those above `4096` are nodes. `unsigned long` has `W` bits.
The answer of the `t`-th call of `malloc` depends on the nodes in use, `0` is a failure, and the
memory it gives is zeroed. Loops take fuel, and `none` means that it ran out.

`XA_STATE` sets `xa_shift`, `xa_sibs` and `xa_update` to zero and nothing changes them, so that no
entry spans several slots; these fields are left out, as are the locks, which are empty macros, and
the field `array`, which is never read. A node's marks are a set of slots for each mark. -/

namespace HardStack.XArray.Model

open HardStack.Lib.Word

def XA_CHUNK_SHIFT : ℕ := 6

def XA_CHUNK_SIZE : ℕ := 64

def XA_CHUNK_MASK : ℕ := 63

def XA_FREE_MARK : ℕ := 0

def XA_MARK_MAX : ℕ := 2

def XA_MAX_MARKS : ℕ := 3

def XA_PRESENT : ℕ := 8

def XAS_BOUNDS : ℕ := 1

def XAS_RESTART : ℕ := 3

structure XaNode where
  shift : ℕ
  offset : ℕ
  count : ℕ
  nrValues : ℕ
  parent : ℕ
  slots : ℕ → ℕ
  marks : ℕ → ℕ → Bool

def zeroNode : XaNode := ⟨0, 0, 0, 0, 0, fun _ => 0, fun _ _ => false⟩

/-- The array, with the memory of the nodes in the tree and the number of calls of `malloc`. -/
structure Xarray where
  flags : ℕ
  head : ℕ
  node : ℕ → XaNode
  live : Finset ℕ
  calls : ℕ

/-- `struct xa_state`. -/
structure XaState where
  xa : Xarray
  index : ℕ
  offset : ℕ
  node : ℕ
  alloc : ℕ

/-- `XA_STATE`. -/
def xaState (xa : Xarray) (index : ℕ) : XaState := ⟨xa, index, 0, XAS_RESTART, 0⟩

/-! ### Entries -/

def xaMkInternal (v : ℕ) : ℕ := 4 * v + 2

def XA_RETRY_ENTRY : ℕ := xaMkInternal 256

def XA_ZERO_ENTRY : ℕ := xaMkInternal 257

def xaIsInternal (entry : ℕ) : Prop := entry % 4 = 2

instance (entry : ℕ) : Decidable (xaIsInternal entry) := inferInstanceAs (Decidable (_ = _))

def xaIsValue (entry : ℕ) : Prop := entry % 2 = 1

instance (entry : ℕ) : Decidable (xaIsValue entry) := inferInstanceAs (Decidable (_ = _))

def xaIsNode (entry : ℕ) : Prop := xaIsInternal entry ∧ entry > 4096

instance (entry : ℕ) : Decidable (xaIsNode entry) := inferInstanceAs (Decidable (_ ∧ _))

def xaIsAdvanced (entry : ℕ) : Prop := xaIsInternal entry ∧ entry ≤ XA_RETRY_ENTRY

instance (entry : ℕ) : Decidable (xaIsAdvanced entry) := inferInstanceAs (Decidable (_ ∧ _))

def xaToNode (entry : ℕ) : ℕ := entry - 2

def xaMkNode (node : ℕ) : ℕ := node ||| 2

/-- `node <= XAS_RESTART`: `NULL`, `XAS_BOUNDS` or `XAS_RESTART`. -/
def xasTop (node : ℕ) : Prop := node ≤ XAS_RESTART

instance (node : ℕ) : Decidable (xasTop node) := inferInstanceAs (Decidable (_ ≤ _))

def xasInvalid (xas : XaState) : Prop := xas.node % 4 ≠ 0

instance (xas : XaState) : Decidable (xasInvalid xas) := inferInstanceAs (Decidable (_ ≠ _))

/-- A sum on `unsigned char`. -/
def addChar (c : ℕ) (d : ℤ) : ℕ := ((c + d) % 256).toNat

section

variable (W : ℕ)

/-- `XA_ERROR(-errno)`. -/
def xaError (errno : ℕ) : ℕ := 4 * (2 ^ W - errno) % 2 ^ W + 2

def ENOMEM : ℕ := 12

def EINVAL : ℕ := 22

def MAX_ERRNO : ℕ := 4095

def xaIsErr (entry : ℕ) : Prop := xaIsInternal entry ∧ entry ≥ xaError W MAX_ERRNO

instance (entry : ℕ) : Decidable (xaIsErr W entry) := inferInstanceAs (Decidable (_ ∧ _))

/-- `xas_error(xas) != 0`. -/
def xasError (xas : XaState) : Prop := xaIsErr W xas.node

instance (xas : XaState) : Decidable (xasError W xas) := inferInstanceAs (Decidable (xaIsErr W _))

end

/-! ### Memory -/

namespace Xarray

def setNode (xa : Xarray) (n : ℕ) (f : XaNode → XaNode) : Xarray :=
  { xa with node := Function.update xa.node n (f (xa.node n)) }

/-- Write to a slot: the head, or the slot `o` of the node `n`. -/
def setSlot (xa : Xarray) (slot : Option (ℕ × ℕ)) (entry : ℕ) : Xarray :=
  match slot with
  | none => { xa with head := entry }
  | some (n, o) => xa.setNode n fun x => { x with slots := Function.update x.slots o entry }

def setCount (xa : Xarray) (n : ℕ) (d : ℤ) : Xarray :=
  xa.setNode n fun x => { x with count := addChar x.count d }

/-- `xa_node_free`. -/
def free (xa : Xarray) (n : ℕ) : Xarray :=
  { xa.setNode n fun x => { x with slots := fun _ => 0, marks := fun _ _ => false } with
    live := xa.live.erase n }

/-! ### Marks -/

def trackFree (xa : Xarray) : Prop := xa.flags &&& 4 ≠ 0

instance (xa : Xarray) : Decidable xa.trackFree := inferInstanceAs (Decidable (_ ≠ _))

def marked (xa : Xarray) (mark : ℕ) : Bool := xa.flags.testBit (23 + mark)

def markSet (xa : Xarray) (mark : ℕ) : Xarray := { xa with flags := xa.flags ||| 2 ^ (23 + mark) }

def markClear (xa : Xarray) (mark : ℕ) : Xarray :=
  { xa with flags := xa.flags &&& notW 32 (2 ^ (23 + mark)) }

/-- Rewrite one bit of a node's marks. -/
def nodeMark (xa : Xarray) (n mark offset : ℕ) (v : Bool) : Xarray :=
  xa.setNode n fun x => { x with
    marks := Function.update x.marks mark (Function.update (x.marks mark) offset v) }

def nodeMarkAll (xa : Xarray) (n mark : ℕ) : Xarray :=
  xa.setNode n fun x => { x with marks := Function.update x.marks mark fun _ => true }

def nodeAnyMark (xa : Xarray) (n mark : ℕ) : Bool :=
  (List.range XA_CHUNK_SIZE).any fun o => (xa.node n).marks mark o

end Xarray

/-- `xas_set_mark`, from a node up. -/
def setMarkLoop (mark : ℕ) : ℕ → Xarray → (node offset : ℕ) → Option Xarray
  | 0, _, _, _ => none
  | k + 1, xa, node, offset =>
    if node ≠ 0 then
      if (xa.node node).marks mark offset then some xa
      else setMarkLoop mark k (xa.nodeMark node mark offset true) (xa.node node).parent
        (xa.node node).offset
    else some (if xa.marked mark then xa else xa.markSet mark)

/-- `xas_clear_mark`, from a node up. -/
def clearMarkLoop (mark : ℕ) : ℕ → Xarray → (node offset : ℕ) → Option Xarray
  | 0, _, _, _ => none
  | k + 1, xa, node, offset =>
    if node ≠ 0 then
      if ¬ (xa.node node).marks mark offset then some xa
      else
        let xa := xa.nodeMark node mark offset false
        if xa.nodeAnyMark node mark then some xa
        else clearMarkLoop mark k xa (xa.node node).parent (xa.node node).offset
    else some (if xa.marked mark then xa.markClear mark else xa)

def xasClearMark (fuel : ℕ) (xas : XaState) (mark : ℕ) : Option XaState :=
  if xasInvalid xas then some xas
  else (clearMarkLoop mark fuel xas.xa xas.node xas.offset).map fun xa => { xas with xa := xa }

def xasSetMark (fuel : ℕ) (xas : XaState) (mark : ℕ) : Option XaState :=
  if xasInvalid xas then some xas
  else (setMarkLoop mark fuel xas.xa xas.node xas.offset).map fun xa => { xas with xa := xa }

def xasInitMarks (fuel : ℕ) (xas : XaState) : Option XaState :=
  (List.range (XA_MARK_MAX + 1)).foldlM (fun xas mark =>
    if xas.xa.trackFree ∧ mark = XA_FREE_MARK then xasSetMark fuel xas mark
    else xasClearMark fuel xas mark) xas

/-! ### Creating slots -/

section

variable (W : ℕ) (malloc : ℕ → Finset ℕ → ℕ)

/-- A call of `malloc` for a node. It is made only when `xa_alloc` is `NULL`, so that the nodes in use
are those of the tree. -/
def mallocNode (xa : Xarray) : Xarray × ℕ :=
  let p := malloc xa.calls xa.live
  ({ xa with
    calls := xa.calls + 1
    node := if p = 0 then xa.node else Function.update xa.node p zeroNode }, p)

/-- `xas_alloc`: the node, or `0`. -/
def xasAlloc (xas : XaState) (shift : ℕ) : XaState × ℕ :=
  let parent := xas.node
  if xasInvalid xas then (xas, 0)
  else
    let (xa, node) := if xas.alloc ≠ 0 then (xas.xa, xas.alloc) else mallocNode malloc xas.xa
    if node = 0 then ({ xas with xa := xa, node := xaError W ENOMEM }, 0)
    else
      let xa := { xa with live := insert node xa.live }
      let xa := if parent ≠ 0 then
          (xa.setNode node fun x => { x with offset := xas.offset % 256 }).setCount parent 1
        else xa
      let xa := xa.setNode node fun x => { x with
        shift := shift % 256, count := 0, nrValues := 0, parent := parent }
      ({ xas with xa := xa, alloc := 0 }, node)

def getOffset (xa : Xarray) (index node : ℕ) : ℕ := index / 2 ^ (xa.node node).shift % XA_CHUNK_SIZE

/-- `xas_descend`; no entry is a sibling. -/
def xasDescend (xas : XaState) (node : ℕ) : XaState × ℕ :=
  let offset := getOffset xas.xa xas.index node
  ({ xas with node := node, offset := offset }, (xas.xa.node node).slots offset)

/-- `max_index`. -/
def maxIndex (xa : Xarray) (entry : ℕ) : ℕ :=
  if ¬ xaIsNode entry then 0
  else (XA_CHUNK_SIZE * 2 ^ (xa.node (xaToNode entry)).shift % 2 ^ W + 2 ^ W - 1) % 2 ^ W

/-- `while ((max >> shift) >= XA_CHUNK_SIZE) shift += XA_CHUNK_SHIFT;` -/
def expandShift (max : ℕ) : ℕ → ℕ → Option ℕ
  | 0, _ => none
  | k + 1, shift =>
    if max / 2 ^ shift ≥ XA_CHUNK_SIZE then expandShift max k (shift + XA_CHUNK_SHIFT)
    else some shift

/-- The marks of a new node at the head. -/
def expandMarks (xa : Xarray) (node : ℕ) : Xarray :=
  (List.range (XA_MARK_MAX + 1)).foldl (fun xa mark =>
    if xa.trackFree ∧ mark = XA_FREE_MARK then
      let xa := xa.nodeMarkAll node XA_FREE_MARK
      if ¬ xa.marked XA_FREE_MARK then
        (xa.nodeMark node XA_FREE_MARK 0 false).markSet XA_FREE_MARK
      else xa
    else if xa.marked mark then xa.nodeMark node mark 0 true else xa) xa

/-- The loop of `xas_expand`: the last node and the shift, or no shift for `-ENOMEM`. -/
def expandLoop : ℕ → XaState → (head node shift : ℕ) → Option (XaState × Option ℕ)
  | 0, _, _, _, _ => none
  | k + 1, xas, head, node, shift =>
    if xas.index > maxIndex W xas.xa head then
      let (xas, node) := xasAlloc W malloc xas shift
      if node = 0 then some (xas, none)
      else
        let xa := xas.xa.setNode node fun x => { x with
          count := 1
          nrValues := if xaIsValue head then 1 else x.nrValues
          slots := Function.update x.slots 0 head }
        let xa := expandMarks xa node
        let xa := if xaIsNode head then
            xa.setNode (xaToNode head) fun x => { x with offset := 0, parent := node }
          else xa
        let head := xaMkNode node
        let xa := { xa with head := head }
        expandLoop k { xas with xa := xa } head node (shift + XA_CHUNK_SHIFT)
    else some ({ xas with node := node }, some shift)

/-- `xas_expand`: the shift, or none for `-ENOMEM`. -/
def xasExpand (fuel : ℕ) (xas : XaState) (head : ℕ) : Option (XaState × Option ℕ) :=
  if head = 0 then
    if xas.index = 0 then some (xas, some 0)
    else (expandShift xas.index fuel 0).map fun shift => (xas, some (shift + XA_CHUNK_SHIFT))
  else
    let xas := { xas with node := 0 }
    if xaIsNode head then
      expandLoop W malloc fuel xas head (xaToNode head)
        ((xas.xa.node (xaToNode head)).shift + XA_CHUNK_SHIFT)
    else expandLoop W malloc fuel xas head 0 0

/-- The loop of `xas_create` down to the slot; `none` as the slot is the head. -/
def createLoop : ℕ → XaState → (shift entry : ℕ) → (slot : Option (ℕ × ℕ)) → Option (XaState × ℕ)
  | 0, _, _, _, _ => none
  | k + 1, xas, shift, entry, slot =>
    let down (xas : XaState) (node shift : ℕ) :=
      let (xas, entry) := xasDescend xas node
      createLoop k xas shift entry (some (node, xas.offset))
    if shift > 0 then
      let shift := shift - XA_CHUNK_SHIFT
      if entry = 0 then
        let (xas, node) := xasAlloc W malloc xas shift
        if node = 0 then some (xas, entry)
        else
          let xa := if xas.xa.trackFree then xas.xa.nodeMarkAll node XA_FREE_MARK else xas.xa
          down { xas with xa := xa.setSlot slot (xaMkNode node) } node shift
      else if xaIsNode entry then down xas (xaToNode entry) shift
      else some (xas, entry)
    else some (xas, entry)

/-- `xas_create`. -/
def xasCreate (fuel : ℕ) (xas : XaState) (allowRoot : Bool) : Option (XaState × ℕ) :=
  if xasTop xas.node then do
    let entry := xas.xa.head
    let (xas, shift) ← xasExpand W malloc fuel { xas with node := 0 } entry
    match shift with
    | none => some (xas, 0)
    | some shift =>
      let shift := if shift = 0 ∧ ¬ allowRoot then XA_CHUNK_SHIFT else shift
      createLoop W malloc fuel xas shift xas.xa.head none
  else if xasError W xas then some (xas, 0)
  else
    let x := xas.xa.node xas.node
    createLoop W malloc fuel xas x.shift (x.slots xas.offset) (some (xas.node, xas.offset))

/-! ### Loading -/

/-- `xas_start`. -/
def xasStart (xas : XaState) : XaState × ℕ :=
  if ¬ xasInvalid xas then
    -- `xas_reload`
    (xas, if xas.node ≠ 0 then (xas.xa.node xas.node).slots xas.offset else xas.xa.head)
  else if xasError W xas then (xas, 0)
  else
    let entry := xas.xa.head
    if (if xaIsNode entry then xas.index / 2 ^ (xas.xa.node (xaToNode entry)).shift ≥ XA_CHUNK_SIZE
        else xas.index ≠ 0) then
      ({ xas with node := XAS_BOUNDS }, 0)
    else ({ xas with node := 0 }, entry)

def loadLoop : ℕ → XaState → (entry : ℕ) → Option (XaState × ℕ)
  | 0, _, _ => none
  | k + 1, xas, entry =>
    if xaIsNode entry then
      let node := xaToNode entry
      let (xas, entry) := xasDescend xas node
      if (xas.xa.node node).shift = 0 then some (xas, entry) else loadLoop k xas entry
    else some (xas, entry)

def xasLoad (fuel : ℕ) (xas : XaState) : Option (XaState × ℕ) :=
  let (xas, entry) := xasStart W xas
  loadLoop fuel xas entry

/-! ### Deleting nodes -/

/-- `xas_shrink`, from the head's node on. -/
def shrinkLoop : ℕ → XaState → (node : ℕ) → Option XaState
  | 0, _, _ => none
  | k + 1, xas, node =>
    let x := xas.xa.node node
    let entry := x.slots 0
    if x.count ≠ 1 then some xas
    else if entry = 0 then some xas
    else if ¬ xaIsNode entry ∧ x.shift ≠ 0 then some xas
    else
      let xa : Xarray := { xas.xa with head := entry }
      let xa := if xa.trackFree ∧ x.marks XA_FREE_MARK 0 = false then xa.markClear XA_FREE_MARK
        else xa
      let xa := xa.setNode node fun x => { x with count := 0, nrValues := 0 }
      let xa := if ¬ xaIsNode entry then xa.setSlot (some (node, 0)) XA_RETRY_ENTRY else xa
      let xa := xa.free node
      let xas := { xas with xa := xa, node := XAS_BOUNDS }
      if ¬ xaIsNode entry then some xas
      else
        let xa := xa.setNode (xaToNode entry) fun x => { x with parent := 0 }
        shrinkLoop k { xas with xa := xa } (xaToNode entry)

def xasShrink (fuel : ℕ) (xas : XaState) : Option XaState := shrinkLoop fuel xas xas.node

/-- `xas_delete_node`, from a node up. -/
def deleteNodeLoop : ℕ → XaState → (node : ℕ) → Option XaState
  | 0, _, _ => none
  | k + 1, xas, node =>
    let x := xas.xa.node node
    if x.count ≠ 0 then
      if x.parent = 0 then xasShrink k xas else some xas
    else
      let parent := x.parent
      let xa := xas.xa.free node
      if parent = 0 then
        some { xas with xa := { xa with head := 0 }, node := XAS_BOUNDS, offset := x.offset }
      else
        let xa := (xa.setSlot (some (parent, x.offset)) 0).setCount parent (-1)
        deleteNodeLoop k { xas with xa := xa, node := parent, offset := x.offset } parent

def updateNode (fuel : ℕ) (xas : XaState) (node : ℕ) (count values : ℤ) : Option XaState :=
  if node = 0 ∨ (count = 0 ∧ values = 0) then some xas
  else
    let xa := xas.xa.setNode node fun x => { x with
      count := addChar x.count count, nrValues := addChar x.nrValues values }
    let xas := { xas with xa := xa }
    if count < 0 then deleteNodeLoop fuel xas xas.node else some xas

/-- `xas_free_nodes`: the loop over the slots of a node that was taken out, and of those below. -/
def freeNodesLoop (top : ℕ) : ℕ → Xarray → (node offset : ℕ) → Option Xarray
  | 0, _, _, _ => none
  | k + 1, xa, node, offset =>
    let x := xa.node node
    if offset = XA_CHUNK_SIZE then
      let xa := (xa.setNode node fun x => { x with count := 0, nrValues := 0 }).free node
      if node = top then some xa else freeNodesLoop top k xa x.parent (x.offset + 1)
    else if x.shift ≠ 0 ∧ xaIsNode (x.slots offset) then
      freeNodesLoop top k xa (xaToNode (x.slots offset)) 0
    else
      let xa := if x.slots offset ≠ 0 then xa.setSlot (some (node, offset)) XA_RETRY_ENTRY else xa
      freeNodesLoop top k xa node (offset + 1)

/-! ### Storing -/

/-- `xas_store`. There are no siblings, so the loop over the slots ends after the first. -/
def xasStore (fuel : ℕ) (xas : XaState) (entry : ℕ) : Option (XaState × ℕ) := do
  let (xas, first) ← if entry ≠ 0 then xasCreate W malloc fuel xas (¬ xaIsNode entry)
    else xasLoad W fuel xas
  if xasInvalid xas then some (xas, first)
  else if first = entry then some (xas, first)
  else
    let node := xas.node
    let xas ← if entry = 0 then xasInitMarks fuel xas else some xas
    let slot := if node ≠ 0 then some (node, xas.offset) else none
    let xa := xas.xa.setSlot slot entry
    let xa ← if xaIsNode first then freeNodesLoop (xaToNode first) fuel xa (xaToNode first) 0
      else some xa
    let xas := { xas with xa := xa }
    let count : ℤ := (if first = 0 then 1 else 0) - (if entry = 0 then 1 else 0)
    let values : ℤ := (if xaIsValue first then 0 else 1) - (if xaIsValue entry then 0 else 1)
    let xas ← updateNode fuel xas node count values
    some (xas, first)

/-- `xas_result`. -/
def xasResult (xas : XaState) (curr : ℕ) : ℕ :=
  if curr = XA_ZERO_ENTRY then 0 else if xasError W xas then xas.node else curr

/-- `__xas_nomem`: whether to try again. Both branches of the source call `malloc`. -/
def xasNomem (xas : XaState) : XaState × Bool :=
  if xas.node ≠ xaError W ENOMEM then ({ xas with alloc := 0 }, false)
  else
    let (xa, p) := mallocNode malloc xas.xa
    if p = 0 then ({ xas with xa := xa, alloc := 0 }, false)
    else ({ xas with xa := xa, alloc := p, node := XAS_RESTART }, true)

/-- The `do` loop of `__xa_store`. -/
def storeLoop (fuel entry : ℕ) : ℕ → XaState → Option (XaState × ℕ)
  | 0, _ => none
  | k + 1, xas => do
    let (xas, curr) ← xasStore W malloc fuel xas entry
    let xas ← if xas.xa.trackFree then xasClearMark fuel xas XA_FREE_MARK else some xas
    let (xas, again) := xasNomem W malloc xas
    if again then storeLoop fuel entry k xas else some (xas, curr)

/-- `xa_store`. -/
def xaStore (fuel : ℕ) (xa : Xarray) (index entry : ℕ) : Option (Xarray × ℕ) :=
  if xaIsAdvanced entry then some (xa, xaError W EINVAL)
  else do
    let entry := if xa.trackFree ∧ entry = 0 then XA_ZERO_ENTRY else entry
    let (xas, curr) ← storeLoop W malloc fuel entry fuel (xaState xa index)
    some (xas.xa, xasResult W xas curr)

/-- `xa_erase`; storing `NULL` calls no `malloc`. -/
def xaErase (fuel : ℕ) (xa : Xarray) (index : ℕ) : Option (Xarray × ℕ) := do
  let (xas, curr) ← xasStore W malloc fuel (xaState xa index) 0
  some (xas.xa, xasResult W xas curr)

/-- `xas_load` on a new `XA_STATE`. -/
def xaLoad (fuel : ℕ) (xa : Xarray) (index : ℕ) : Option ℕ :=
  (xasLoad W fuel (xaState xa index)).map fun r => r.2

/-! ### Searching

`xa_is_sibling` is constant, and `xa_shift` is zero. -/

def xasNotNode (node : ℕ) : Prop := node % 4 ≠ 0 ∨ node = 0

instance (node : ℕ) : Decidable (xasNotNode node) := inferInstanceAs (Decidable (_ ∨ _))

def xasMoveIndex (xas : XaState) (offset : ℕ) : XaState :=
  let shift := (xas.xa.node xas.node).shift
  { xas with
    index := ((xas.index &&& (notW W XA_CHUNK_MASK <<< shift % 2 ^ W)) + offset <<< shift) % 2 ^ W }

def xasSetOffset (xas : XaState) : XaState :=
  { xas with offset := getOffset xas.xa xas.index xas.node }

def xasAdvance (xas : XaState) : XaState :=
  let offset := (xas.offset + 1) % 256
  xasMoveIndex W { xas with offset := offset } offset

/-- The slot after the one of the node in its parent. -/
def xasClimb (xas : XaState) : XaState :=
  let x := xas.xa.node xas.node
  { xas with offset := (x.offset + 1) % 256, node := x.parent }

/-- The loop of `xas_find`. -/
def findLoop (max : ℕ) : ℕ → XaState → Option (XaState × ℕ)
  | 0, _ => none
  | k + 1, xas =>
    if xas.node ≠ 0 ∧ xas.index ≤ max then
      if xas.offset = XA_CHUNK_SIZE then findLoop max k (xasClimb xas)
      else
        let entry := (xas.xa.node xas.node).slots xas.offset
        if xaIsNode entry then findLoop max k { xas with node := xaToNode entry, offset := 0 }
        else if entry ≠ 0 then some (xas, entry)
        else findLoop max k (xasAdvance W xas)
    else some (if xas.node = 0 then { xas with node := XAS_BOUNDS } else xas, 0)

/-- `xas_find`. -/
def xasFind (fuel : ℕ) (xas : XaState) (max : ℕ) : Option (XaState × ℕ) :=
  if xasError W xas then some (xas, 0)
  else if xas.node = 0 then some ({ xas with index := 1, node := XAS_BOUNDS }, 0)
  else if xasTop xas.node then do
    let (xas, entry) ← xasLoad W fuel xas
    if entry ≠ 0 ∨ xasNotNode xas.node then some (xas, entry)
    else findLoop W max fuel (xasAdvance W xas)
  else
    let xas := if (xas.xa.node xas.node).shift = 0 ∧ xas.offset ≠ xas.index &&& XA_CHUNK_MASK then
        { xas with offset := ((xas.index + (2 ^ W - 1)) % 2 ^ W &&& XA_CHUNK_MASK) + 1 }
      else xas
    findLoop W max fuel (xasAdvance W xas)

/-- `xas_find_chunk`. -/
def xasFindChunk (xas : XaState) (advance : Bool) (mark : ℕ) : ℕ :=
  Lib.Bitmap.next ((xas.xa.node xas.node).marks mark) XA_CHUNK_SIZE
    (if advance then xas.offset + 1 else xas.offset)

/-- The end of `xas_find_marked`, from `out` on. -/
def findMarkedOut (max : ℕ) (xas : XaState) : XaState × ℕ :=
  if xas.index > max then ({ xas with node := XAS_RESTART }, 0)
  else ({ xas with node := XAS_BOUNDS }, 0)

/-- The loop of `xas_find_marked`. -/
def findMarkedLoop (max mark : ℕ) : ℕ → XaState → (advance : Bool) → Option (XaState × ℕ)
  | 0, _, _ => none
  | k + 1, xas, advance =>
    let slot (xas : XaState) (advance : Bool) :=
      let entry := (xas.xa.node xas.node).slots xas.offset
      if ¬ xaIsNode entry then some (xas, entry)
      else findMarkedLoop max mark k (xasSetOffset { xas with node := xaToNode entry }) advance
    if xas.index ≤ max then
      if xas.offset = XA_CHUNK_SIZE then
        let xas := xasClimb xas
        if xas.node = 0 then some (findMarkedOut max xas) else findMarkedLoop max mark k xas false
      else
        let offset := xasFindChunk xas advance mark
        if offset > xas.offset then
          let xas := xasMoveIndex W xas offset
          if (xas.index + (2 ^ W - 1)) % 2 ^ W ≥ max then some ({ xas with node := XAS_RESTART }, 0)
          else
            let xas := { xas with offset := offset }
            if offset = XA_CHUNK_SIZE then findMarkedLoop max mark k xas false else slot xas false
        else slot xas advance
    else some (findMarkedOut max xas)

/-- `xas_find_marked`. -/
def xasFindMarked (fuel : ℕ) (xas : XaState) (max mark : ℕ) : Option (XaState × ℕ) :=
  if xasError W xas then some (xas, 0)
  else if xas.node = 0 then some (findMarkedOut max { xas with index := 1 })
  else if xasTop xas.node then
    let entry := xas.xa.head
    let xas := { xas with node := 0 }
    if xas.index > maxIndex W xas.xa entry then some (findMarkedOut max xas)
    else if ¬ xaIsNode entry then
      if xas.xa.marked mark then some (xas, entry)
      else some (findMarkedOut max { xas with index := 1 })
    else
      let node := xaToNode entry
      findMarkedLoop W max mark fuel
        { xas with node := node, offset := xas.index / 2 ^ (xas.xa.node node).shift % 256 } false
  else findMarkedLoop W max mark fuel xas true

/-- `xas_retry`. -/
def xasRetry (xas : XaState) (entry : ℕ) : XaState × Bool :=
  if entry = XA_ZERO_ENTRY then (xas, true)
  else if entry ≠ XA_RETRY_ENTRY then (xas, false)
  else ({ xas with node := XAS_RESTART }, true)

/-- The search that the filter asks for. -/
def findFilter (fuel : ℕ) (xas : XaState) (max filter : ℕ) : Option (XaState × ℕ) :=
  if filter < XA_MAX_MARKS then xasFindMarked W fuel xas max filter else xasFind W fuel xas max

/-- The loop of `xa_find`. -/
def xaFindLoop (fuel max filter : ℕ) : ℕ → XaState → Option (XaState × ℕ)
  | 0, _ => none
  | k + 1, xas => do
    let (xas, entry) ← findFilter W fuel xas max filter
    let (xas, again) := xasRetry xas entry
    if again then xaFindLoop fuel max filter k xas else some (xas, entry)

/-- `xa_find`: the entry and `*indexp`. -/
def xaFind (fuel : ℕ) (xa : Xarray) (index max filter : ℕ) : Option (ℕ × ℕ) := do
  let (xas, entry) ← xaFindLoop W fuel max filter fuel (xaState xa index)
  some (entry, if entry ≠ 0 then xas.index else index)

/-- The loop of `xa_find_after`. -/
def xaFindAfterLoop (fuel max filter : ℕ) : ℕ → XaState → Option (XaState × ℕ)
  | 0, _ => none
  | k + 1, xas => do
    let (xas, entry) ← findFilter W fuel xas max filter
    if xas.node = XAS_BOUNDS then some (xas, entry)
    else
      let (xas, again) := xasRetry xas entry
      if again then xaFindAfterLoop fuel max filter k xas else some (xas, entry)

/-- `xa_find_after`: the entry and `*indexp`. -/
def xaFindAfter (fuel : ℕ) (xa : Xarray) (index max filter : ℕ) : Option (ℕ × ℕ) := do
  let (xas, entry) ← xaFindAfterLoop W fuel max filter fuel (xaState xa ((index + 1) % 2 ^ W))
  some (entry, if entry ≠ 0 then xas.index else index)

/-- The loop of `xa_for_each` from an entry and its index on: the indices and entries it visits. -/
def forEachLoop (fuel : ℕ) (xa : Xarray) : ℕ → (entry index : ℕ) → Option (List (ℕ × ℕ))
  | 0, _, _ => none
  | k + 1, entry, index =>
    if entry = 0 then some []
    else do
      let next ← xaFindAfter W fuel xa index (2 ^ W - 1) XA_PRESENT
      let rest ← forEachLoop fuel xa k next.1 next.2
      some ((index, entry) :: rest)

/-- `xa_for_each`. -/
def xaForEach (fuel : ℕ) (xa : Xarray) : Option (List (ℕ × ℕ)) := do
  let first ← xaFind W fuel xa 0 (2 ^ W - 1) XA_PRESENT
  forEachLoop W fuel xa fuel first.1 first.2

end

end HardStack.XArray.Model
