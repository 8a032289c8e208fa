import HardStack.Lib.Bitmap
import HardStack.Radix.Model

/-! # The id allocator of `Algorithem/IDA/Basic`

`ida.c` on top of `radix.c`: the search of a free id, and the IDR, which gives out ids and keeps a
pointer for each. The tree is `Radix.Model`'s. `past n i` is the word number `i` in memory after the
last tag of node `n`. Loops take fuel, and `none` means that a call does not return.

The masks `gfp` of the callers are not used, and `set_iter_shift` does nothing; both are left out. -/

namespace HardStack.Ida.Model

open HardStack.Lib.Word HardStack.Radix.Model

def EINVAL : ℤ := 22

def ENOSPC : ℤ := 28

def ENOENT : ℤ := 2

def INT_MAX : ℕ := 2 ^ 31 - 1

def ROOT_IS_IDR : ℕ := 4

/-- `ROOT_IS_IDR` and the tag `IDR_FREE` of the root. -/
def IDR_RT_MARKER : ℕ := ROOT_IS_IDR ||| 2 ^ (ROOT_TAG_SHIFT + IDR_FREE)

/-- `struct radix_tree_iter`. -/
structure Iter where
  index : ℕ
  nextIndex : ℕ
  tags : ℕ
  node : ℕ

/-- What `idr_get_free` returns: `ERR_PTR(e)`, or a slot together with the iterator. -/
inductive Free
  | error (e : ℤ)
  | slot (iter : Iter) (slot : Slot)

section

variable (W : ℕ) (past : ℕ → ℕ → ℕ)

/-- `__ffs`. -/
def ffs (word : ℕ) : ℕ := (List.range W).findIdx fun i => word.testBit i

/-! ### The next tag -/

/-- The word `node->tags[tag][idx]`. Past the row of the tag come the rows of the other tags, and
then the memory after the node. -/
def tagsWord (s : Tree) (n tag idx : ℕ) : ℕ :=
  let i := tag * RADIX_TREE_TAG_LONGS W + idx
  if i < RADIX_TREE_MAX_TAGS * RADIX_TREE_TAG_LONGS W then
    (s.node n).tags (i / RADIX_TREE_TAG_LONGS W) (i % RADIX_TREE_TAG_LONGS W)
  else past n (i - RADIX_TREE_MAX_TAGS * RADIX_TREE_TAG_LONGS W)

/-- The `while` loop of `radix_tree_find_next_bit`, which leaves `offset` as it is. -/
def findNextLoop (s : Tree) (n tag : ℕ) : ℕ → (idx offset : ℕ) → Option ℕ
  | 0, _, _ => none
  | k + 1, idx, offset =>
    if offset < RADIX_TREE_MAP_SIZE then
      let tmp := tagsWord W past s n tag (idx + 1)
      if tmp ≠ 0 then some (ffs W tmp + offset) else findNextLoop s n tag k (idx + 1) offset
    else some RADIX_TREE_MAP_SIZE

/-- `radix_tree_find_next_bit`. -/
def radixTreeFindNextBit (fuel : ℕ) (s : Tree) (n tag offset : ℕ) : Option ℕ :=
  if offset < RADIX_TREE_MAP_SIZE then
    let idx := offset / W
    let tmp := tagsWord W past s n tag idx / 2 ^ (offset % W)
    if tmp ≠ 0 then some (ffs W tmp + offset)
    else findNextLoop W past s n tag fuel idx ((offset + W) &&& notW W (W - 1))
  else some RADIX_TREE_MAP_SIZE

/-! ### `idr_get_free` -/

def nodeMaxindex (s : Tree) (n : ℕ) : ℕ := shiftMaxindex W (s.node n).shift

def nextIndex (s : Tree) (index n offset : ℕ) : ℕ :=
  ((index &&& notW W (nodeMaxindex W s n)) + offset * 2 ^ (s.node n).shift % 2 ^ W) % 2 ^ W

/-- `set_iter_tags`. -/
def setIterTags (s : Tree) (iter : Iter) (n offset tag : ℕ) : Iter :=
  let tagLong := offset / W
  let tagBit := offset % W
  if n = 0 then { iter with tags := 1 }
  else
    let tags := tagsWord W past s n tag tagLong / 2 ^ tagBit
    if tagLong < RADIX_TREE_TAG_LONGS W - 1 then
      { iter with
        tags := if tagBit ≠ 0 then
            tags ||| (tagsWord W past s n tag (tagLong + 1) * 2 ^ (W - tagBit) % 2 ^ W)
          else tags
        nextIndex := (iter.index + W) % 2 ^ W }
    else { iter with tags := tags }

/-- The end of `idr_get_free`. -/
def getFreeDone (s : Tree) (max start n offset : ℕ) (slot : Slot) : Free :=
  let iter : Iter := ⟨start,
    if n ≠ 0 then (1 + min max (start ||| nodeMaxindex W s n)) % 2 ^ W else 1, 0, n⟩
  .slot (setIterTags W past s iter n offset IDR_FREE) slot

/-- From the end of a node up to the next slot: the node, the offset and the shift. The node is
`NULL` where the root's is exhausted. -/
def climb (s : Tree) : ℕ → (n offset shift : ℕ) → Option (ℕ × ℕ × ℕ)
  | 0, _, _, _ => none
  | k + 1, n, offset, shift =>
    if offset = RADIX_TREE_MAP_SIZE then
      let offset := (s.node n).offset + 1
      let n := (s.node n).parent
      if n = 0 then some (0, offset, shift) else climb s k n offset (s.node n).shift
    else some (n, offset, shift)

/-- The label `grow`, with the descent that follows it as `loop`. -/
def grow (malloc : Finset ℕ → ℕ) (max fuel : ℕ)
    (loop : Tree → (start shift child n offset : ℕ) → Slot → Option (Tree × Free))
    (s : Tree) (start offset : ℕ) (slot : Slot) : Option (Tree × Free) :=
  let (maxindex, shift) := radixTreeLoadRoot W s
  let start := if ¬ s.rootTagGet IDR_FREE then Nat.max start ((maxindex + 1) % 2 ^ W) else start
  if start > max then some (s, .error (-ENOSPC))
  else if start > maxindex then do
    let (s, error) ← radixTreeExtend W malloc fuel s start shift
    if error < 0 then some (s, .error error)
    else loop s start error.toNat s.rnode 0 offset slot
  else loop s start shift s.rnode 0 offset slot

/-- A level down into `child`, and on to the next slot that is tagged free. -/
def visit (malloc : Finset ℕ → ℕ) (max fuel : ℕ)
    (loop : Tree → (start shift child n offset : ℕ) → Slot → Option (Tree × Free))
    (s : Tree) (start shift child : ℕ) (slot : Slot) : Option (Tree × Free) :=
  let n := entryToNode child
  let offset := descendOffset s n start
  if tagGet W s n IDR_FREE offset then
    loop s start shift ((s.node n).slots offset) n offset (.slots n offset)
  else do
    let offset ← radixTreeFindNextBit W past fuel s n IDR_FREE (offset + 1)
    let start := nextIndex W s start n offset
    if start > max then some (s, .error (-ENOSPC))
    else
      let (n, offset, shift) ← climb s fuel n offset shift
      if n = 0 then grow W malloc max fuel loop s start offset slot
      else loop s start shift ((s.node n).slots offset) n offset (.slots n offset)

/-- The `while (shift)` loop of `idr_get_free`. -/
def getFreeLoop (malloc : Finset ℕ → ℕ) (max : ℕ) :
    ℕ → Tree → (start shift child n offset : ℕ) → Slot → Option (Tree × Free)
  | 0, _, _, _, _, _, _, _ => none
  | k + 1, s, start, shift, child, n, offset, slot =>
    if shift = 0 then some (s, getFreeDone W past s max start n offset slot)
    else
      let shift := shift - RADIX_TREE_MAP_SHIFT
      if child = 0 then do
        let (s, child) ← radixTreeNodeAlloc malloc s n shift offset 0
        if child = 0 then some (s, .error (-ENOMEM))
        else
          let s := allTagSet W s child IDR_FREE
          let s := s.setSlot slot (nodeToEntry child)
          let s := if n ≠ 0 then s.setCount n 1 else s
          visit W past malloc max k (getFreeLoop malloc max k) s start shift (nodeToEntry child) slot
      else if ¬ isInternalNode child then some (s, getFreeDone W past s max start n offset slot)
      else visit W past malloc max k (getFreeLoop malloc max k) s start shift child slot

/-- `idr_get_free` from `iter->next_index` on. -/
def idrGetFree (malloc : Finset ℕ → ℕ) (fuel : ℕ) (s : Tree) (start max : ℕ) :
    Option (Tree × Free) :=
  grow W malloc max fuel (getFreeLoop W past malloc max fuel) s start 0 .rnode

/-! ### Iteration

`tag` is the tag of `RADIX_TREE_ITER_TAGGED`, `none` without that flag. `RADIX_TREE_ITER_CONTIG` is
never set. -/

/-- What `radix_tree_next_slot` gives: `NULL`, a slot, or a read that is not of one of the node's
slots. -/
inductive NextSlot
  | null (iter : Iter)
  | slot (iter : Iter) (slot : Slot)
  | outside

/-- `slot + d`, within the slots of the node. -/
def slotAdd (slot : Slot) (d : ℕ) : Option Slot :=
  match slot with
  | .rnode => if d = 0 then some .rnode else none
  | .slots n o => if o + d < RADIX_TREE_MAP_SIZE then some (.slots n (o + d)) else none

/-- `radix_tree_chunk_size`, a `long`. -/
def chunkSize (iter : Iter) : ℤ :=
  let size := (iter.nextIndex + 2 ^ W - iter.index) % 2 ^ W
  if size < 2 ^ (W - 1) then size else (size : ℤ) - 2 ^ W

/-- The loop of `radix_tree_next_slot` without tags. -/
def nextSlotLoop (s : Tree) : ℕ → Iter → Slot → NextSlot
  | 0, iter, _ => .null iter
  | count + 1, iter, slot =>
    match slotAdd slot 1 with
    | none => .outside
    | some slot =>
      let iter := { iter with index := (iter.index + 1) % 2 ^ W }
      if s.getSlot slot ≠ 0 then .slot iter slot else nextSlotLoop s count iter slot

/-- `radix_tree_next_slot` with tags, whose shift by one is not stored. -/
def nextSlotTagged (iter : Iter) (slot : Slot) : NextSlot :=
  if iter.tags = 0 then .null iter
  else
    let offset := if iter.tags % 2 = 1 then 0 else ffs W iter.tags
    match slotAdd slot (offset + 1) with
    | none => .outside
    | some slot =>
      .slot { iter with
        index := (iter.index + (offset + 1)) % 2 ^ W, tags := iter.tags / 2 ^ offset } slot

/-- `radix_tree_next_slot`. -/
def radixTreeNextSlot (tag : Option ℕ) (s : Tree) (iter : Iter) (slot : Slot) : NextSlot :=
  match tag with
  | some _ => nextSlotTagged W iter slot
  | none => nextSlotLoop W s (chunkSize W iter - 1).toNat iter slot

/-- Whether the walk leaves out a slot. -/
def isHole (tag : Option ℕ) (s : Tree) (n offset child : ℕ) : Bool :=
  match tag with
  | some tag => ! tagGet W s n tag offset
  | none => child == 0

/-- The next slot after a hole. -/
def afterHole (tag : Option ℕ) (fuel : ℕ) (s : Tree) (n offset : ℕ) : Option ℕ :=
  match tag with
  | some tag => radixTreeFindNextBit W past fuel s n tag (offset + 1)
  | none => some (Lib.Bitmap.next (fun o => (s.node n).slots o != 0) RADIX_TREE_MAP_SIZE (offset + 1))

/-- The label `restart`, with the descent that follows it as `loop`. -/
def chunkRestart (s : Tree) (iter : Iter)
    (loop : (index child : ℕ) → Option (Iter × Option Slot)) (index : ℕ) :
    Option (Iter × Option Slot) :=
  let maxindex := (radixTreeLoadRoot W s).1
  if index > maxindex then some (iter, none)
  else if s.rnode = 0 then some (iter, none)
  else if ¬ isInternalNode s.rnode then
    some (⟨index, (maxindex + 1) % 2 ^ W, 1, 0⟩, some .rnode)
  else loop index s.rnode

/-- The end of `radix_tree_next_chunk`. -/
def chunkDone (tag : Option ℕ) (s : Tree) (iter : Iter) (index n offset : ℕ) : Iter × Option Slot :=
  let iter : Iter := ⟨(index &&& notW W (nodeMaxindex W s n)) ||| (offset * 2 ^ (s.node n).shift % 2 ^ W),
    ((index ||| nodeMaxindex W s n) + 1) % 2 ^ W, iter.tags, n⟩
  (match tag with
    | some tag => setIterTags W past s iter n offset tag
    | none => iter, some (.slots n offset))

/-- The `do` loop of `radix_tree_next_chunk`. -/
def nextChunkLoop (tag : Option ℕ) (fuel : ℕ) (s : Tree) (iter : Iter) :
    ℕ → (index child : ℕ) → Option (Iter × Option Slot)
  | 0, _, _ => none
  | k + 1, index, child =>
    let n := entryToNode child
    let offset := descendOffset s n index
    let restart := chunkRestart W s iter (nextChunkLoop tag fuel s iter k)
    let enter (index offset child : ℕ) :=
      if child = 0 then restart index
      else if child = RADIX_TREE_RETRY ∨ ¬ isInternalNode child then
        some (chunkDone W past tag s iter index n offset)
      else nextChunkLoop tag fuel s iter k index child
    if isHole W tag s n offset ((s.node n).slots offset) then do
      let offset ← afterHole W past tag fuel s n offset
      let index := nextIndex W s index n offset
      if index = 0 then some (iter, none)
      else if offset = RADIX_TREE_MAP_SIZE then restart index
      else enter index offset ((s.node n).slots offset)
    else enter index offset ((s.node n).slots offset)

/-- `radix_tree_next_chunk`. -/
def radixTreeNextChunk (tag : Option ℕ) (fuel : ℕ) (s : Tree) (iter : Iter) :
    Option (Iter × Option Slot) :=
  if tag.any fun tag => ! s.rootTagGet tag then some (iter, none)
  else if iter.nextIndex = 0 ∧ iter.index ≠ 0 then some (iter, none)
  else chunkRestart W s iter (nextChunkLoop W past tag fuel s iter fuel) iter.nextIndex

/-- The test of `radix_tree_for_each_slot`. -/
def forEachTest (tag : Option ℕ) (fuel : ℕ) (s : Tree) (iter : Iter) :
    Option Slot → Option (Iter × Option Slot)
  | some slot => some (iter, some slot)
  | none => radixTreeNextChunk W past tag fuel s iter

/-- The rounds of `radix_tree_for_each_slot`, and of its form with tags: the indices and items visited,
and whether every read was of a slot. -/
def forEachSlotLoop (tag : Option ℕ) (fuel : ℕ) (s : Tree) :
    ℕ → Iter → Option Slot → Option (List (ℕ × ℕ) × Bool)
  | 0, _, _ => none
  | k + 1, iter, slot => do
    let (iter, slot) ← forEachTest W past tag fuel s iter slot
    match slot with
    | none => some ([], true)
    | some slot =>
      let visit := (iter.index, s.getSlot slot)
      match radixTreeNextSlot W tag s iter slot with
      | .outside => some ([visit], false)
      | .null iter => (forEachSlotLoop tag fuel s k iter none).map fun r => (visit :: r.1, r.2)
      | .slot iter slot =>
        (forEachSlotLoop tag fuel s k iter (some slot)).map fun r => (visit :: r.1, r.2)

/-- `radix_tree_for_each_slot`; `radix_tree_iter_init` leaves the tags as they are. -/
def radixTreeForEachSlot (tag : Option ℕ) (fuel : ℕ) (s : Tree) (start tags node : ℕ) :
    Option (List (ℕ × ℕ) × Bool) :=
  forEachSlotLoop W past tag fuel s fuel ⟨0, start, tags, node⟩ none

/-! ### `__radix_tree_replace` -/

/-- The tag of a slot, `node_tag_get`. -/
def nodeTagGet (s : Tree) (n tag offset : ℕ) : Bool :=
  if n ≠ 0 then tagGet W s n tag offset else s.rootTagGet tag

def calculateCount (s : Tree) (n : ℕ) (slot : Slot) (item old : ℕ) : ℤ :=
  if s.isIdr then
    if ¬ nodeTagGet W s n IDR_FREE (getSlotOffset n slot) then 0
    else if old = 0 then 1
    else (if item ≠ 0 then 1 else 0) - (if old ≠ 0 then 1 else 0)
  else (if item ≠ 0 then 1 else 0) - (if old ≠ 0 then 1 else 0)

/-- `__radix_tree_replace`. -/
def radixTreeReplace (fuel : ℕ) (s : Tree) (n : ℕ) (slot : Slot) (item : ℕ) : Option Tree :=
  let old := s.getSlot slot
  let exceptional : ℤ :=
    (if exceptionalEntry item then 1 else 0) - (if exceptionalEntry old then 1 else 0)
  let count := calculateCount W s n slot item old
  let s := replaceSlot s slot item n count exceptional
  if n = 0 then some s else (deleteNode W fuel s n false).map fun r => r.1

/-- `radix_tree_iter_tag_clear`. -/
def radixTreeIterTagClear (fuel : ℕ) (s : Tree) (iter : Iter) (tag : ℕ) : Option Tree :=
  nodeTagClear W tag fuel s iter.node (iter.index % RADIX_TREE_MAP_SIZE)

/-- The descent of `radix_tree_tag_get`. -/
def tagGetLoop (s : Tree) (index tag : ℕ) : ℕ → (child : ℕ) → Option Bool
  | 0, _ => none
  | k + 1, child =>
    if isInternalNode child then
      let parent := entryToNode child
      let offset := descendOffset s parent index
      let child := (s.node parent).slots offset
      if ¬ tagGet W s parent tag offset then some false
      else if child = RADIX_TREE_RETRY then some true
      else tagGetLoop s index tag k child
    else some true

def radixTreeTagGet (fuel : ℕ) (s : Tree) (index tag : ℕ) : Option Bool :=
  if ¬ s.rootTagGet tag then some false
  else if index > (radixTreeLoadRoot W s).1 then some false
  else tagGetLoop W s index tag fuel s.rnode

end

/-! ### The IDR -/

/-- `struct idr`. -/
structure Idr where
  rt : Tree
  base : ℕ
  next : ℕ

section

variable (W : ℕ) (past : ℕ → ℕ → ℕ) (malloc : Finset ℕ → ℕ) (fuel : ℕ)

/-- `idr_init`: no node in use. -/
def idrInit (mem : ℕ → Node) : Idr := ⟨⟨IDR_RT_MARKER, 0, mem, ∅⟩, 0, 0⟩

/-- A `u32` that becomes an `int`. -/
def asInt (x : ℕ) : ℤ := if x < 2 ^ 31 then x else (x : ℤ) - 2 ^ 32

/-- `idr_alloc_u32`: the error, and the id. -/
def idrAllocU32 (idr : Idr) (ptr nextid max : ℕ) : Option (Idr × ℤ × ℕ) :=
  let base := idr.base % 2 ^ 32
  if isInternalNode ptr then some (idr, -EINVAL, nextid)
  else
    let idr := if ¬ idr.rt.isIdr then
        { idr with rt := { idr.rt with gfpMask := idr.rt.gfpMask ||| IDR_RT_MARKER } }
      else idr
    let id := if nextid < base then 0 else nextid - base
    do
      let (s, r) ← idrGetFree W past malloc fuel idr.rt id ((max + 2 ^ W - base) % 2 ^ W)
      match r with
      | .error e => some ({ idr with rt := s }, e, nextid)
      | .slot iter slot =>
        let nextid := (iter.index + base) % 2 ^ 32
        let s ← radixTreeReplace W fuel s iter.node slot ptr
        let s ← radixTreeIterTagClear W fuel s iter IDR_FREE
        some ({ idr with rt := s }, 0, nextid)

/-- `idr_alloc`: the id, or an error. -/
def idrAlloc (idr : Idr) (ptr : ℕ) (start «end» : ℤ) : Option (Idr × ℤ) :=
  if start < 0 then some (idr, -EINVAL)
  else do
    let max := if «end» > 0 then («end» - 1).toNat else INT_MAX
    let (idr, ret, id) ← idrAllocU32 W past malloc fuel idr ptr start.toNat max
    if ret ≠ 0 then some (idr, ret) else some (idr, asInt id)

/-- `idr_alloc_cyclic`: the id, or an error. `idr_next` and the ids are `u32`, `max` is an `int`. -/
def idrAllocCyclic (idr : Idr) (ptr : ℕ) (start «end» : ℤ) : Option (Idr × ℤ) := do
  let max : ℤ := if «end» > 0 then «end» - 1 else INT_MAX
  -- an `int` that becomes a `u32`, or an `unsigned long`
  let toU32 (x : ℤ) : ℕ := (x % 2 ^ 32).toNat
  let toUlong (x : ℤ) : ℕ := (x % 2 ^ W).toNat
  let id := if asInt idr.next < start then toU32 start else idr.next
  let (idr, err, id') ← idrAllocU32 W past malloc fuel idr ptr id (toUlong max)
  let (idr, err, id) ← if err = -ENOSPC ∧ id' > toU32 start then
      idrAllocU32 W past malloc fuel idr ptr (toU32 start) (toUlong max)
    else some (idr, err, id')
  if err ≠ 0 then some (idr, err) else some ({ idr with next := (id + 1) % 2 ^ 32 }, asInt id)

/-- `idr_remove`: the pointer. -/
def idrRemove (idr : Idr) (id : ℕ) : Option (Idr × ℕ) :=
  (radixTreeDeleteItem W fuel idr.rt ((id + 2 ^ W - idr.base) % 2 ^ W) 0).map fun r =>
    ({ idr with rt := r.1 }, r.2)

/-- `idr_find`. -/
def idrFind (idr : Idr) (id : ℕ) : Option ℕ :=
  radixTreeLookup W fuel idr.rt ((id + 2 ^ W - idr.base) % 2 ^ W)

/-- The rounds of `idr_for_each`, with the calls of `fn` so far; a read that is not of a slot does not
return. -/
def idrForEachLoop (idr : Idr) (fn : ℕ → ℕ → ℤ) :
    ℕ → Iter → Option Slot → List (ℕ × ℕ) → Option (ℤ × List (ℕ × ℕ))
  | 0, _, _, _ => none
  | k + 1, iter, slot, calls => do
    let (iter, slot) ← forEachTest W past none fuel idr.rt iter slot
    match slot with
    | none => some (0, calls)
    | some slot =>
      let id := (iter.index + idr.base) % 2 ^ W
      if id > INT_MAX then some (0, calls)
      else
        let item := idr.rt.getSlot slot
        let ret := fn id item
        let calls := calls ++ [(id, item)]
        if ret ≠ 0 then some (ret, calls)
        else
          match radixTreeNextSlot W none idr.rt iter slot with
          | .outside => none
          | .null iter => idrForEachLoop idr fn k iter none calls
          | .slot iter slot => idrForEachLoop idr fn k iter (some slot) calls

/-- `idr_for_each`: the return value, and the calls of `fn`. -/
def idrForEach (idr : Idr) (fn : ℕ → ℕ → ℤ) (tags node : ℕ) : Option (ℤ × List (ℕ × ℕ)) :=
  idrForEachLoop W past fuel idr fn fuel ⟨0, 0, tags, node⟩ none []

/-- `idr_replace`: the error of `ERR_PTR`, or the old pointer. -/
def idrReplace (idr : Idr) (ptr id : ℕ) : Option (Idr × Except ℤ ℕ) :=
  if isInternalNode ptr then some (idr, .error (-EINVAL))
  else do
    let id := (id + 2 ^ W - idr.base) % 2 ^ W
    let (entry, node, slot) ← radixTreeLookupSlot W fuel idr.rt id
    match slot with
    | none => some (idr, .error (-ENOENT))
    | some slot =>
      let tagged ← radixTreeTagGet W fuel idr.rt id IDR_FREE
      if tagged then some (idr, .error (-ENOENT))
      else
        let s ← radixTreeReplace W fuel idr.rt node slot ptr
        some ({ idr with rt := s }, .ok entry)

end

end HardStack.Ida.Model
