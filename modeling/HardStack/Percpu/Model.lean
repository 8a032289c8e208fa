import Mathlib
import HardStack.Lib.Bitmap

/-! # The per-cpu allocator of `Memory-Allocator/PERCPU-MEMAT/SMP_PERCPU_userspace`

`mm/percpu.c`. A bitmap is a function of the bit; `memblock_alloc` returns zeroed memory. The counters
that are only printed are left out. -/

namespace HardStack.Percpu.Model

def PAGE_SIZE : ℕ := 4096
def PCPU_MIN_ALLOC_SIZE : ℕ := 4
def PCPU_MIN_UNIT_SIZE : ℕ := 32 * 1024
def PCPU_BITS_PER_PAGE : ℕ := PAGE_SIZE / PCPU_MIN_ALLOC_SIZE
def PCPU_BITMAP_BLOCK_SIZE : ℕ := PAGE_SIZE
def PCPU_BITMAP_BLOCK_BITS : ℕ := PCPU_BITMAP_BLOCK_SIZE / PCPU_MIN_ALLOC_SIZE
def PCPU_SLOT_BASE_SHIFT : ℕ := 5

def ALIGN (x a : ℕ) : ℕ := (x + (a - 1)) - ((x + (a - 1)) &&& (a - 1))
def ALIGN_DOWN (x a : ℕ) : ℕ := x - (x &&& (a - 1))
def PFN_UP (x : ℕ) : ℕ := (x + PAGE_SIZE - 1) / PAGE_SIZE
def PFN_DOWN (x : ℕ) : ℕ := x / PAGE_SIZE

/-- `__ffs`. -/
def ffs (word : ℕ) : ℕ := Nat.log2 (word - (word &&& (word - 1)))

/-- `fls`. -/
def fls (x : ℕ) : ℕ := Nat.size x

/-! ### Bitmaps -/

def findNextBit (map : ℕ → Bool) (size offset : ℕ) : ℕ := Lib.Bitmap.next map size offset

def findNextZeroBit (map : ℕ → Bool) (size offset : ℕ) : ℕ :=
  Lib.Bitmap.next (fun i => !map i) size offset

/-- The last set bit below `n`. -/
def findLastBitLoop (map : ℕ → Bool) (size : ℕ) : ℕ → ℕ
  | 0 => size
  | n + 1 => if map n then n else findLastBitLoop map size n

def findLastBit (map : ℕ → Bool) (size : ℕ) : ℕ := findLastBitLoop map size size

def bitmapSet (map : ℕ → Bool) (start nr : ℕ) : ℕ → Bool :=
  fun i => if start ≤ i ∧ i < start + nr then true else map i

def bitmapClear (map : ℕ → Bool) (start nr : ℕ) : ℕ → Bool :=
  fun i => if start ≤ i ∧ i < start + nr then false else map i

def bitmapFindNextZeroArea (map : ℕ → Bool) (size start nr alignMask : ℕ) : ℕ :=
  Lib.Bitmap.zeroArea map (fun x => (x + alignMask) - ((x + alignMask) &&& alignMask)) size nr
    (size + 1) start

/-! ### Blocks and chunks -/

/-- `struct pcpu_block_md`. -/
structure Block where
  contigHint : ℕ
  contigHintStart : ℕ
  leftFree : ℕ
  rightFree : ℕ
  firstFree : ℕ
  deriving DecidableEq

/-- `struct pcpu_chunk`. -/
structure Chunk where
  freeBytes : ℕ
  contigBits : ℕ
  contigBitsStart : ℕ
  baseAddr : ℕ
  allocMap : ℕ → Bool
  boundMap : ℕ → Bool
  mdBlocks : ℕ → Block
  firstBit : ℕ
  startOffset : ℕ
  endOffset : ℕ
  nrPages : ℕ
  populated : ℕ → Bool

def chunkNrBlocks (chunk : Chunk) : ℕ := chunk.nrPages * PAGE_SIZE / PCPU_BITMAP_BLOCK_SIZE
def chunkMapBits (chunk : Chunk) : ℕ := chunk.nrPages * PAGE_SIZE / PCPU_MIN_ALLOC_SIZE

def offToBlockIndex (off : ℕ) : ℕ := off / PCPU_BITMAP_BLOCK_BITS
def offToBlockOff (off : ℕ) : ℕ := off % PCPU_BITMAP_BLOCK_BITS
def blockOffToOff (index off : ℕ) : ℕ := index * PCPU_BITMAP_BLOCK_BITS + off

/-- `pcpu_index_alloc_map`. -/
def indexAllocMap (map : ℕ → Bool) (index : ℕ) : ℕ → Bool := fun i => map (blockOffToOff index i)

/-- `pcpu_next_unpop`. -/
def nextUnpop (map : ℕ → Bool) (rs fin : ℕ) : ℕ × ℕ :=
  let rs := findNextZeroBit map fin rs
  (rs, findNextBit map fin (rs + 1))

/-- The loop of `pcpu_next_md_free_region` over the `n` blocks from block `i` on. -/
def nextMdFreeRegionLoop (md : ℕ → Block) : ℕ → ℕ → ℕ → ℕ → ℕ → ℕ × ℕ
  | 0, _, _, bitOff, bits => (bitOff, bits)
  | n + 1, i, blockOff, bitOff, bits =>
    let block := md i
    if bits ≠ 0 then
      -- a region that goes on from the block before
      if block.leftFree = PCPU_BITMAP_BLOCK_BITS then
        nextMdFreeRegionLoop md n (i + 1) blockOff bitOff (bits + block.leftFree)
      else (bitOff, bits + block.leftFree)
    else if block.contigHint ≠ 0 ∧ blockOff ≤ block.contigHintStart ∧
        block.contigHint + block.contigHintStart < PCPU_BITMAP_BLOCK_BITS then
      (blockOffToOff i block.contigHintStart, block.contigHint)
    else
      nextMdFreeRegionLoop md n (i + 1) 0 ((i + 1) * PCPU_BITMAP_BLOCK_BITS - block.rightFree)
        block.rightFree

/-- `pcpu_next_md_free_region`. -/
def nextMdFreeRegion (chunk : Chunk) (bitOff : ℕ) : ℕ × ℕ :=
  let i := offToBlockIndex bitOff
  nextMdFreeRegionLoop chunk.mdBlocks (chunkNrBlocks chunk - i) i (offToBlockOff bitOff) bitOff 0

/-- The loop of `pcpu_next_fit_region`; `bits` may be negative if the alignment exceeds a block. -/
def nextFitRegionLoop (chunk : Chunk) (allocBits align : ℕ) : ℕ → ℕ → ℕ → ℕ → ℤ → ℕ × ℤ
  | 0, _, _, _, bits => (chunkMapBits chunk, bits)
  | n + 1, i, blockOff, bitOff, bits =>
    let block := chunk.mdBlocks i
    if bits ≠ 0 ∧ (allocBits : ℤ) ≤ bits + block.leftFree then (bitOff, bits + block.leftFree)
    else if bits ≠ 0 ∧ block.leftFree = PCPU_BITMAP_BLOCK_BITS then
      nextFitRegionLoop chunk allocBits align n (i + 1) blockOff bitOff (bits + block.leftFree)
    else
      let pad := ALIGN block.contigHintStart align - block.contigHintStart
      if block.contigHint ≠ 0 ∧ blockOff ≤ block.contigHintStart ∧
          pad + allocBits ≤ block.contigHint then
        (blockOffToOff i block.firstFree,
          (pad + allocBits + block.contigHintStart : ℕ) - (block.firstFree : ℤ))
      else
        let off := ALIGN (PCPU_BITMAP_BLOCK_BITS - block.rightFree) align
        let bits : ℤ := PCPU_BITMAP_BLOCK_BITS - off
        if (allocBits : ℤ) ≤ bits then (blockOffToOff i off, bits)
        else nextFitRegionLoop chunk allocBits align n (i + 1) 0 (blockOffToOff i off) bits

/-- `pcpu_next_fit_region`. -/
def nextFitRegion (chunk : Chunk) (allocBits align bitOff : ℕ) : ℕ × ℤ :=
  let i := offToBlockIndex bitOff
  nextFitRegionLoop chunk allocBits align (chunkNrBlocks chunk - i) i (offToBlockOff bitOff) bitOff 0

/-! ### Metadata -/

/-- `pcpu_block_update`. -/
def blockUpdate (block : Block) (start fin : ℕ) : Block :=
  let contig := fin - start
  let block := { block with firstFree := min block.firstFree start }
  let block := if start = 0 then { block with leftFree := contig } else block
  let block := if fin = PCPU_BITMAP_BLOCK_BITS then { block with rightFree := contig } else block
  if block.contigHint < contig then { block with contigHintStart := start, contigHint := contig }
  else if block.contigHintStart ≠ 0 ∧ contig = block.contigHint ∧
      (start = 0 ∨ ffs block.contigHintStart < ffs start) then { block with contigHintStart := start }
  else block

/-- The loop of `pcpu_block_refresh_hint`; every round begins after the region before. -/
def blockRefreshHintLoop (map : ℕ → Bool) : ℕ → Block → ℕ → Block
  | 0, block, _ => block
  | fuel + 1, block, rs =>
    let (rs, re) := nextUnpop map rs PCPU_BITMAP_BLOCK_BITS
    if rs < re then blockRefreshHintLoop map fuel (blockUpdate block rs re) (re + 1) else block

/-- `pcpu_block_refresh_hint`. -/
def blockRefreshHint (allocMap : ℕ → Bool) (block : Block) (index : ℕ) : Block :=
  blockRefreshHintLoop (indexAllocMap allocMap index) (PCPU_BITMAP_BLOCK_BITS + 1)
    { block with contigHint := 0, leftFree := 0, rightFree := 0 } block.firstFree

/-- `pcpu_chunk_update`. -/
def chunkUpdate (chunk : Chunk) (bitOff bits : ℕ) : Chunk :=
  if chunk.contigBits < bits then { chunk with contigBitsStart := bitOff, contigBits := bits }
  else if bits = chunk.contigBits ∧ chunk.contigBitsStart ≠ 0 ∧
      (bitOff = 0 ∨ ffs chunk.contigBitsStart < ffs bitOff) then
    { chunk with contigBitsStart := bitOff }
  else chunk

/-- The loop of `pcpu_chunk_refresh_hint`; `none` if it has not ended. -/
def chunkRefreshHintLoop : ℕ → Chunk → ℕ → Option Chunk
  | 0, _, _ => none
  | fuel + 1, chunk, bitOff =>
    let (bitOff, bits) := nextMdFreeRegion chunk bitOff
    if bitOff < chunkMapBits chunk then
      chunkRefreshHintLoop fuel (chunkUpdate chunk bitOff bits) (bitOff + (bits + 1))
    else some chunk

/-- `pcpu_chunk_refresh_hint`, with a round for every bit. -/
def chunkRefreshHint (chunk : Chunk) : Option Chunk :=
  chunkRefreshHintLoop (chunkMapBits chunk + 1) { chunk with contigBits := 0 } chunk.firstBit

/-- What `pcpu_block_update_hint_alloc` does to `s_block`. -/
def updateStartBlock (allocMap : ℕ → Bool) (block : Block) (sIndex eIndex sOff eOff bits : ℕ) :
    Block :=
  let map := indexAllocMap allocMap sIndex
  let block :=
    if sOff = block.firstFree then
      { block with firstFree := findNextZeroBit map PCPU_BITMAP_BLOCK_BITS (sOff + bits) }
    else block
  if block.contigHintStart ≤ sOff ∧ sOff < block.contigHintStart + block.contigHint then
    blockRefreshHint allocMap block sIndex
  else
    { block with
      leftFree := min block.leftFree sOff
      rightFree := if sIndex = eIndex then min block.rightFree (PCPU_BITMAP_BLOCK_BITS - eOff)
        else 0 }

/-- What it does to an `e_block` that is another one. -/
def updateEndBlock (allocMap : ℕ → Bool) (block : Block) (eIndex eOff : ℕ) : Block :=
  let map := indexAllocMap allocMap eIndex
  let block := { block with firstFree := findNextZeroBit map PCPU_BITMAP_BLOCK_BITS eOff }
  if eOff = PCPU_BITMAP_BLOCK_BITS then block
  else if block.contigHintStart < eOff then blockRefreshHint allocMap block eIndex
  else { block with leftFree := 0, rightFree := min block.rightFree (PCPU_BITMAP_BLOCK_BITS - eOff) }

/-- The block updates of `pcpu_block_update_hint_alloc`. -/
def updateBlocksAlloc (allocMap : ℕ → Bool) (md : ℕ → Block) (bitOff bits : ℕ) : ℕ → Block :=
  let sIndex := offToBlockIndex bitOff
  let eIndex := offToBlockIndex (bitOff + bits - 1)
  let sOff := offToBlockOff bitOff
  let eOff := offToBlockOff (bitOff + bits - 1) + 1
  let md := Function.update md sIndex
    (updateStartBlock allocMap (md sIndex) sIndex eIndex sOff eOff bits)
  if sIndex = eIndex then md
  else
    let md := Function.update md eIndex (updateEndBlock allocMap (md eIndex) eIndex eOff)
    let eBlock := if eOff = PCPU_BITMAP_BLOCK_BITS then eIndex + 1 else eIndex
    fun i => if sIndex < i ∧ i < eBlock then
      { md i with contigHint := 0, leftFree := 0, rightFree := 0 } else md i

/-- `pcpu_block_update_hint_alloc`. -/
def blockUpdateHintAlloc (chunk : Chunk) (bitOff bits : ℕ) : Option Chunk :=
  let chunk := { chunk with mdBlocks := updateBlocksAlloc chunk.allocMap chunk.mdBlocks bitOff bits }
  if chunk.contigBitsStart ≤ bitOff ∧ bitOff < chunk.contigBitsStart + chunk.contigBits then
    chunkRefreshHint chunk
  else some chunk

/-- Where the free area around a freed one begins in its first block. -/
def freeStart (map : ℕ → Bool) (block : Block) (sOff : ℕ) : ℕ :=
  if sOff = block.contigHint + block.contigHintStart then block.contigHintStart
  else
    let lBit := findLastBit map sOff
    if sOff = lBit then 0 else lBit + 1

/-- Where it ends in its last block. -/
def freeEnd (map : ℕ → Bool) (block : Block) (eOff : ℕ) : ℕ :=
  if eOff = block.contigHintStart then block.contigHintStart + block.contigHint
  else findNextBit map PCPU_BITMAP_BLOCK_BITS eOff

/-- The block updates of `pcpu_block_update_hint_free`. -/
def updateBlocksFree (md : ℕ → Block) (sIndex eIndex start fin : ℕ) : ℕ → Block :=
  let eOff := if sIndex = eIndex then fin else PCPU_BITMAP_BLOCK_BITS
  let md := Function.update md sIndex (blockUpdate (md sIndex) start eOff)
  if sIndex = eIndex then md
  else
    let md := Function.update md eIndex (blockUpdate (md eIndex) 0 fin)
    fun i => if sIndex < i ∧ i < eIndex then
      ⟨PCPU_BITMAP_BLOCK_BITS, 0, PCPU_BITMAP_BLOCK_BITS, PCPU_BITMAP_BLOCK_BITS, 0⟩ else md i

/-- `pcpu_block_update_hint_free`. -/
def blockUpdateHintFree (chunk : Chunk) (bitOff bits : ℕ) : Option Chunk :=
  let sIndex := offToBlockIndex bitOff
  let eIndex := offToBlockIndex (bitOff + bits - 1)
  let sOff := offToBlockOff bitOff
  let eOff := offToBlockOff (bitOff + bits - 1) + 1
  let start := freeStart (indexAllocMap chunk.allocMap sIndex) (chunk.mdBlocks sIndex) sOff
  let fin := freeEnd (indexAllocMap chunk.allocMap eIndex) (chunk.mdBlocks eIndex) eOff
  let chunk := { chunk with mdBlocks := updateBlocksFree chunk.mdBlocks sIndex eIndex start fin }
  let least := min PCPU_BITS_PER_PAGE PCPU_BITMAP_BLOCK_BITS
  if ALIGN start least < ALIGN_DOWN fin least ∨ sIndex ≠ eIndex then chunkRefreshHint chunk
  else some (chunkUpdate chunk (blockOffToOff sIndex start) (chunk.mdBlocks sIndex).contigHint)

/-! ### Areas -/

/-- The chunk of `pcpu_alloc_first_chunk` before its ends are hidden. -/
def newChunk (tmpAddr mapSize : ℕ) : Chunk :=
  let alignedAddr := ALIGN_DOWN tmpAddr PAGE_SIZE
  let startOffset := tmpAddr - alignedAddr
  let regionSize := ALIGN (startOffset + mapSize) (Nat.lcm PAGE_SIZE PCPU_BITMAP_BLOCK_SIZE)
  let nrPages := regionSize / PAGE_SIZE
  { freeBytes := mapSize
    contigBits := mapSize / PCPU_MIN_ALLOC_SIZE
    contigBitsStart := 0
    baseAddr := alignedAddr
    allocMap := fun _ => false
    boundMap := fun _ => false
    mdBlocks := fun _ => ⟨PCPU_BITMAP_BLOCK_BITS, 0, PCPU_BITMAP_BLOCK_BITS, PCPU_BITMAP_BLOCK_BITS, 0⟩
    firstBit := 0
    startOffset := startOffset
    endOffset := regionSize - startOffset - mapSize
    nrPages := nrPages
    populated := fun page => page < nrPages }

/-- It hides the beginning of the bitmap. -/
def hideStart (chunk : Chunk) : Option Chunk :=
  if chunk.startOffset ≠ 0 then
    let offsetBits := chunk.startOffset / PCPU_MIN_ALLOC_SIZE
    blockUpdateHintAlloc
      { chunk with
        allocMap := bitmapSet chunk.allocMap 0 offsetBits
        boundMap := bitmapSet (bitmapSet chunk.boundMap 0 1) offsetBits 1
        firstBit := offsetBits } 0 offsetBits
  else some chunk

/-- It hides the end of the bitmap. -/
def hideEnd (mapSize : ℕ) (chunk : Chunk) : Option Chunk :=
  if chunk.endOffset ≠ 0 then
    let offsetBits := chunk.endOffset / PCPU_MIN_ALLOC_SIZE
    let regionBits := chunkMapBits chunk
    blockUpdateHintAlloc
      { chunk with
        allocMap := bitmapSet chunk.allocMap (regionBits - offsetBits) offsetBits
        boundMap := bitmapSet (bitmapSet chunk.boundMap
          ((chunk.startOffset + mapSize) / PCPU_MIN_ALLOC_SIZE) 1) regionBits 1 }
      (regionBits - offsetBits) offsetBits
  else some chunk

/-- `pcpu_alloc_first_chunk`. -/
def allocFirstChunk (tmpAddr mapSize : ℕ) : Option Chunk :=
  (hideStart (newChunk tmpAddr mapSize)).bind (hideEnd mapSize)

/-- `pcpu_is_populated`: where the next populated page begins, if a page is not populated. -/
def isPopulated (chunk : Chunk) (bitOff : ℕ) (bits : ℤ) : Option ℕ :=
  let pageStart := PFN_DOWN (bitOff * PCPU_MIN_ALLOC_SIZE)
  let pageEnd := PFN_UP ((bitOff + bits).toNat * PCPU_MIN_ALLOC_SIZE)
  let (rs, re) := nextUnpop chunk.populated pageStart pageEnd
  if pageEnd ≤ rs then none else some (re * PAGE_SIZE / PCPU_MIN_ALLOC_SIZE)

/-- The loop of `pcpu_find_block_fit`. -/
def findBlockFitLoop (chunk : Chunk) (allocBits align : ℕ) (popOnly : Bool) : ℕ → ℕ → ℕ
  | 0, _ => chunkMapBits chunk
  | fuel + 1, bitOff =>
    let (bitOff, bits) := nextFitRegion chunk allocBits align bitOff
    if bitOff < chunkMapBits chunk then
      match popOnly, isPopulated chunk bitOff bits with
      | true, some nextOff => findBlockFitLoop chunk allocBits align popOnly fuel nextOff
      | _, _ => bitOff
    else bitOff

/-- `pcpu_find_block_fit`; `none` is `-1`. -/
def findBlockFit (chunk : Chunk) (allocBits align : ℕ) (popOnly : Bool) : Option ℕ :=
  if chunk.contigBits < ALIGN chunk.contigBitsStart align - chunk.contigBitsStart + allocBits then none
  else
    let bitOff := findBlockFitLoop chunk allocBits align popOnly (chunkMapBits chunk + 1)
      chunk.firstBit
    if bitOff = chunkMapBits chunk then none else some bitOff

/-- The search of `pcpu_alloc_area`; `none` is `-1`. -/
def findArea (chunk : Chunk) (allocBits align start : ℕ) : Option ℕ :=
  let fin := start + allocBits + PCPU_BITMAP_BLOCK_BITS
  let bitOff := bitmapFindNextZeroArea chunk.allocMap fin start allocBits
    (if align ≠ 0 then align - 1 else 0)
  if fin ≤ bitOff then none else some bitOff

/-- The rest of `pcpu_alloc_area`, up to `pcpu_chunk_relocate`. -/
def takeArea (chunk : Chunk) (bitOff allocBits : ℕ) : Option Chunk :=
  let allocMap := bitmapSet chunk.allocMap bitOff allocBits
  let boundMap := bitmapSet (bitmapClear (bitmapSet chunk.boundMap bitOff 1) (bitOff + 1)
    (allocBits - 1)) (bitOff + allocBits) 1
  blockUpdateHintAlloc
    { chunk with
      allocMap := allocMap
      boundMap := boundMap
      freeBytes := chunk.freeBytes - allocBits * PCPU_MIN_ALLOC_SIZE
      firstBit := if bitOff = chunk.firstBit then
        findNextZeroBit allocMap (chunkMapBits chunk) (bitOff + allocBits) else chunk.firstBit }
    bitOff allocBits

/-- `pcpu_free_area`, up to `pcpu_chunk_relocate`. -/
def freeArea (chunk : Chunk) (off : ℕ) : Option Chunk :=
  let bitOff := off / PCPU_MIN_ALLOC_SIZE
  let fin := findNextBit chunk.boundMap (chunkMapBits chunk) (bitOff + 1)
  let bits := fin - bitOff
  blockUpdateHintFree
    { chunk with
      allocMap := bitmapClear chunk.allocMap bitOff bits
      freeBytes := chunk.freeBytes + bits * PCPU_MIN_ALLOC_SIZE
      firstBit := min chunk.firstBit bitOff } bitOff bits

end HardStack.Percpu.Model
