import Mathlib
import HardStack.Lib.Run

/-! # The memblock allocator of `Memory-Allocator/Memblock-allocator/memblock_userspace`

`mm/memblock.c` with the macros of `include/linux`, as the `Makefile` builds it: `phys_addr_t` is 32
bits wide. The region arrays are values: a `memblock_type` holds the list of its first `cnt` regions,
and `array` tells whether `regions` still points to the static array or to a block that
`memblock_double_array` has placed in the managed memory. A call that runs into `BUG()`, which loops,
has no result; nor has one that needs more rounds than it is given. -/

namespace HardStack.Memblock.Model

/-! ### Macros -/

def PHYS_ADDR_MAX : ℕ := 2 ^ 32 - 1
def MEMBLOCK_ALLOC_ACCESSIBLE : ℕ := 0
def MEMBLOCK_ALLOC_KASAN : ℕ := 1
def INIT_MEMBLOCK_REGIONS : ℕ := 32
def PAGE_SIZE : ℕ := 1 <<< 12
def ENOMEM : ℤ := 12
def ULLONG_MAX : ℕ := 2 ^ 64 - 1

/-- `sizeof(struct memblock_region)`. -/
def regionBytes : ℕ := 12

/-- `ALIGN`, as it is written: without the complement of the mask. -/
def ALIGN (x a : ℕ) : ℕ := (x + a - 1) % 2 ^ 32 &&& (a - 1)
def PAGE_ALIGN (addr : ℕ) : ℕ := ALIGN addr PAGE_SIZE

def clamp (val lo hi : ℕ) : ℕ := min (max val lo) hi

/-- `__round_mask`. -/
def roundMask (y : ℕ) : ℕ := (y + (2 ^ 32 - 1)) % 2 ^ 32

def roundUp (x y : ℕ) : ℕ := (((x + (2 ^ 32 - 1)) % 2 ^ 32 ||| roundMask y) + 1) % 2 ^ 32
def roundDown (x y : ℕ) : ℕ := x &&& ((2 ^ 32 - 1) ^^^ roundMask y)

/-! ### Data -/

structure Region where
  base : ℕ
  size : ℕ
  flags : ℕ
  deriving DecidableEq, Repr

/-- The end of a region, exclusive. -/
def Region.fin (r : Region) : ℕ := r.base + r.size

/-- `struct memblock_type`. -/
structure MemblockType where
  regions : List Region
  max : ℕ
  totalSize : ℕ
  array : Option ℕ
  deriving DecidableEq

def MemblockType.cnt (type : MemblockType) : ℕ := type.regions.length

/-- Which of the two types a pointer to a `memblock_type` points to. -/
inductive Kind
  | memory
  | reserved
  deriving DecidableEq

/-- What `memblock_double_array` did to the reserved regions: it has reserved a block for a new
array, or freed the block of an old one. -/
inductive TableEvent
  | reserve (base size : ℕ)
  | free (base size : ℕ)
  deriving DecidableEq

/-- `struct memblock`, and a ghost log of the blocks of arrays. -/
structure State where
  bottomUp : Bool
  currentLimit : ℕ
  memory : MemblockType
  reserved : MemblockType
  log : List TableEvent
  deriving DecidableEq

namespace State

def type (s : State) : Kind → MemblockType
  | .memory => s.memory
  | .reserved => s.reserved

def setType (s : State) : Kind → MemblockType → State
  | .memory, type => { s with memory := type }
  | .reserved, type => { s with reserved := type }

end State

/-- The static initial value of a type: one empty dummy region. -/
def initType : MemblockType where
  regions := [⟨0, 0, 0⟩]
  max := INIT_MEMBLOCK_REGIONS
  totalSize := 0
  array := none

/-- The static `memblock`. -/
def init : State where
  bottomUp := false
  currentLimit := PHYS_ADDR_MAX
  memory := initType
  reserved := initType
  log := []

/-- `memblock_cap_size`. -/
def capSize (base size : ℕ) : ℕ := min size (PHYS_ADDR_MAX - base)

/-! ### Inserting and merging -/

/-- `memblock_insert_region`. -/
def insertRegion (type : MemblockType) (idx base size flags : ℕ) : Option MemblockType :=
  if type.cnt ≥ type.max then none
  else some { type with
    regions := type.regions.insertIdx idx ⟨base, size, flags⟩
    totalSize := type.totalSize + size }

/-- The loop of `memblock_merge_regions` from the region `this` on. -/
def mergeFrom (this : Region) : List Region → Option (List Region)
  | [] => some [this]
  | next :: rest =>
    if this.base + this.size ≠ next.base ∨ this.flags ≠ next.flags then
      if this.base + this.size > next.base then none
      else (mergeFrom next rest).map (this :: ·)
    else mergeFrom { this with size := this.size + next.size } rest

/-- `memblock_merge_regions`; `cnt` never goes below 1. -/
def mergeRegions (type : MemblockType) : Option MemblockType :=
  match type.regions with
  | [] => some type
  | this :: rest => (mergeFrom this rest).map fun regions => { type with regions := regions }

/-! ### Searching -/

/-- An `int` from 32 bits. -/
def toInt (x : ℕ) : ℤ := if x < 2 ^ 31 then x else (x : ℤ) - 2 ^ 32

/-- `(u32)idx_a | (u64)idx_b << 32`. -/
def packIdx (idxA idxB : ℤ) : ℕ := (idxA % 2 ^ 32).toNat + (idxB % 2 ^ 32).toNat * 2 ^ 32

def unpackA (idx : ℕ) : ℤ := toInt (idx % 2 ^ 32)
def unpackB (idx : ℕ) : ℤ := toInt (idx / 2 ^ 32 % 2 ^ 32)

/-- The region at an index that is inside the array. -/
def MemblockType.region (type : MemblockType) (i : ℕ) : Region := type.regions.getD i ⟨0, 0, 0⟩

/-- The free area before reservation `i`: `r_start` and `r_end`. -/
def MemblockType.gapStart (type : MemblockType) (i : ℕ) : ℕ :=
  if i = 0 then 0 else (type.region (i - 1)).fin

def MemblockType.gapEnd (type : MemblockType) (i : ℕ) : ℕ :=
  if i < type.cnt then (type.region i).base else PHYS_ADDR_MAX

/-- The inner loop of `__next_mem_range` at `idx_b`, with `n` areas to go: `idx_b` where the two
regions intersect, or where it has advanced past `idx_a`. -/
def nextAreaB (m : Region) (typeB : MemblockType) : ℕ → (idxB : ℕ) → ℕ × Bool
  | 0, idxB => (idxB, false)
  | n + 1, idxB =>
    if typeB.gapStart idxB ≥ m.fin then (idxB, false)
    else if m.base < typeB.gapEnd idxB then (idxB, true)
    else nextAreaB m typeB n (idxB + 1)

/-- The outer loop of `__next_mem_range` at `idx_a`, with `n` regions to go. -/
def nextMemRangeLoop (typeA typeB : MemblockType) : ℕ → (idxA idxB : ℕ) → ℕ × ℕ × ℕ
  | 0, _, _ => (ULLONG_MAX, 0, 0)
  | n + 1, idxA, idxB =>
    let m := typeA.region idxA
    let (idxB, found) := nextAreaB m typeB (typeB.cnt + 1 - idxB) idxB
    if found then
      let idx := if m.fin ≤ typeB.gapEnd idxB then packIdx (idxA + 1) idxB
        else packIdx idxA (idxB + 1)
      (idx, max m.base (typeB.gapStart idxB), min m.fin (typeB.gapEnd idxB))
    else nextMemRangeLoop typeA typeB n (idxA + 1) idxB

/-- `__next_mem_range`: the cursor after the call, and the range. -/
def nextMemRange (typeA typeB : MemblockType) (idx : ℕ) : ℕ × ℕ × ℕ :=
  let idxA := (unpackA idx).toNat
  nextMemRangeLoop typeA typeB (typeA.cnt - idxA) idxA (unpackB idx).toNat

/-- The inner loop of `__next_mem_range_rev`, where `n` is `idx_b + 1`. -/
def nextAreaRevB (m : Region) (typeB : MemblockType) : (n : ℕ) → ℕ × Bool
  | 0 => (0, false)
  | idxB + 1 =>
    if typeB.gapEnd idxB ≤ m.base then (idxB + 1, false)
    else if m.fin > typeB.gapStart idxB then (idxB + 1, true)
    else nextAreaRevB m typeB idxB

/-- The outer loop of `__next_mem_range_rev`: the arguments are `idx_a + 1` and `idx_b + 1`. -/
def nextMemRangeRevLoop (typeA typeB : MemblockType) : (na nb : ℕ) → ℕ × ℕ × ℕ
  | 0, _ => (ULLONG_MAX, 0, 0)
  | idxA + 1, nb =>
    let m := typeA.region idxA
    let (nb, found) := nextAreaRevB m typeB nb
    if found then
      let idxB := nb - 1
      let idx := if m.base ≥ typeB.gapStart idxB then packIdx ((idxA : ℤ) - 1) idxB
        else packIdx idxA ((idxB : ℤ) - 1)
      (idx, max m.base (typeB.gapStart idxB), min m.fin (typeB.gapEnd idxB))
    else nextMemRangeRevLoop typeA typeB idxA nb

/-- `__next_mem_range_rev`. -/
def nextMemRangeRev (typeA typeB : MemblockType) (idx : ℕ) : ℕ × ℕ × ℕ :=
  if idx = ULLONG_MAX then nextMemRangeRevLoop typeA typeB typeA.cnt (typeB.cnt + 1)
  else nextMemRangeRevLoop typeA typeB (unpackA idx + 1).toNat (unpackB idx + 1).toNat

/-- The number of free ranges is less than this. -/
def rangeRounds (s : State) : ℕ := s.memory.cnt + s.reserved.cnt + 2

/-- The body of the loop of `__memblock_find_range_bottom_up`, over at most `n` more ranges. -/
def findRangeBottomUpLoop (s : State) (start fin size align : ℕ) : ℕ → (i : ℕ × ℕ × ℕ) → ℕ
  | 0, _ => 0
  | n + 1, (i, thisStart, thisEnd) =>
    if i = ULLONG_MAX then 0
    else
      let thisStart := clamp thisStart start fin
      let thisEnd := clamp thisEnd start fin
      let cand := roundUp thisStart align
      if cand < thisEnd ∧ thisEnd - cand ≥ size then cand
      else findRangeBottomUpLoop s start fin size align n (nextMemRange s.memory s.reserved i)

def findRangeBottomUp (s : State) (start fin size align : ℕ) : ℕ :=
  findRangeBottomUpLoop s start fin size align (rangeRounds s) (nextMemRange s.memory s.reserved 0)

/-- The body of the loop of `__memblock_find_range_top_down`, over at most `n` more ranges. -/
def findRangeTopDownLoop (s : State) (start fin size align : ℕ) : ℕ → (i : ℕ × ℕ × ℕ) → ℕ
  | 0, _ => 0
  | n + 1, (i, thisStart, thisEnd) =>
    if i = ULLONG_MAX then 0
    else
      let thisStart := clamp thisStart start fin
      let thisEnd := clamp thisEnd start fin
      if thisEnd < size then
        findRangeTopDownLoop s start fin size align n (nextMemRangeRev s.memory s.reserved i)
      else
        let cand := roundDown (thisEnd - size) align
        if cand ≥ thisStart then cand
        else findRangeTopDownLoop s start fin size align n (nextMemRangeRev s.memory s.reserved i)

def findRangeTopDown (s : State) (start fin size align : ℕ) : ℕ :=
  findRangeTopDownLoop s start fin size align (rangeRounds s)
    (nextMemRangeRev s.memory s.reserved ULLONG_MAX)

/-- `CONFIG_MEMBLOCK_BASE`, which is `__pa(PAGE_OFFSET)`, and the address of the emulated memory. -/
structure Config where
  MEMBLOCK_BASE : ℕ
  PAGE_OFFSET : ℕ

/-- `phys_to_virt`. -/
def Config.physToVirt (c : Config) (x : ℕ) : ℕ :=
  (x + (2 ^ 32 - c.MEMBLOCK_BASE % 2 ^ 32) + c.PAGE_OFFSET) % 2 ^ 32

section

variable (c : Config)

/-- `memblock_find_in_range_node`. -/
def findInRangeNode (s : State) (size align start fin : ℕ) : ℕ :=
  let fin := if fin = MEMBLOCK_ALLOC_ACCESSIBLE ∨ fin = MEMBLOCK_ALLOC_KASAN then s.currentLimit
    else fin
  let start := max start PAGE_SIZE
  let fin := max start fin
  let kernelEnd := c.MEMBLOCK_BASE
  let ret := if s.bottomUp ∧ fin > kernelEnd then
      findRangeBottomUp s (max start kernelEnd) fin size align else 0
  if ret ≠ 0 then ret else findRangeTopDown s start fin size align

/-- `memblock_find_in_range`. No memory is mirrored, so that there is no second try. -/
def findInRange (s : State) (start fin size align : ℕ) : ℕ :=
  findInRangeNode c s size align start fin

end

/-! ### Adding and removing ranges -/

section

-- `memblock_double_array`, and whether it has succeeded
variable (double : State → Kind → (newAreaStart newAreaSize : ℕ) → Option (State × Bool))

/-- `while (type->cnt + extra > type->max) if (memblock_double_array(..) < 0) return -ENOMEM;` -/
def growArray (kind : Kind) (extra base size : ℕ) : ℕ → State → Option (State × Bool)
  | n, s =>
    if (s.type kind).cnt + extra ≤ (s.type kind).max then some (s, true)
    else
      match n with
      | 0 => none
      | n + 1 =>
        match double s kind base size with
        | none => none
        | some (s, false) => some (s, false)
        | some (s, true) => growArray kind extra base size n s

/-- The loop of a pass of `memblock_add_range` at `idx`, with `k` regions to go: the type, `idx`,
`base` and `nr_new` when it ends. -/
def addLoop (insert : Bool) (fin flags : ℕ) :
    ℕ → MemblockType → (idx base nrNew : ℕ) → Option (MemblockType × ℕ × ℕ × ℕ)
  | 0, type, idx, base, nrNew => some (type, idx, base, nrNew)
  | k + 1, type, idx, base, nrNew =>
    let rgn := type.region idx
    let rbase := rgn.base
    let rend := rbase + rgn.size
    if rbase ≥ fin then some (type, idx, base, nrNew)
    else if rend ≤ base then addLoop insert fin flags k type (idx + 1) base nrNew
    else if rbase > base then
      if insert then
        match insertRegion type idx base (rbase - base) flags with
        | none => none
        | some type => addLoop insert fin flags k type (idx + 1 + 1) (min rend fin) (nrNew + 1)
      else addLoop insert fin flags k type (idx + 1) (min rend fin) (nrNew + 1)
    else addLoop insert fin flags k type (idx + 1) (min rend fin) nrNew

/-- What follows the loop: `insert the remaining portion`. -/
def addRest (insert : Bool) (fin flags : ℕ) (r : MemblockType × ℕ × ℕ × ℕ) :
    Option (MemblockType × ℕ) :=
  let (type, idx, base, nrNew) := r
  if base < fin then
    if insert then (insertRegion type idx base (fin - base) flags).map fun type => (type, nrNew + 1)
    else some (type, nrNew + 1)
  else some (type, nrNew)

/-- A pass of `memblock_add_range`: the type and `nr_new`. -/
def addPass (insert : Bool) (type : MemblockType) (base fin flags : ℕ) :
    Option (MemblockType × ℕ) :=
  (addLoop insert fin flags type.cnt type 0 base 0).bind (addRest insert fin flags)

/-- `memblock_add_range`. -/
def addRange (n : ℕ) (s : State) (kind : Kind) (base size flags : ℕ) : Option (State × ℤ) :=
  let size := capSize base size
  let fin := base + size
  if size = 0 then some (s, 0)
  else
    let type := s.type kind
    if (type.region 0).size = 0 then
      some (s.setType kind { type with
        regions := ⟨base, size, flags⟩ :: type.regions.tail
        totalSize := size }, 0)
    else
      match addPass false type base fin flags with
      | none => none
      | some (_, nrNew) =>
        if nrNew = 0 then some (s, 0)
        else
          match growArray double kind nrNew base size n s with
          | none => none
          | some (s, false) => some (s, -ENOMEM)
          | some (s, true) =>
            match addPass true (s.type kind) base fin flags with
            | none => none
            | some (type, nrNew) =>
              if nrNew = 0 then some (s.setType kind type, 0)
              else (mergeRegions type).map fun type => (s.setType kind type, 0)

/-- The loop of `memblock_isolate_range` at `idx`, with at most `k` rounds: the type and the two out
parameters when it ends. -/
def isolateLoop (base fin : ℕ) : ℕ → MemblockType → (idx startRgn endRgn : ℕ) →
    Option (MemblockType × ℕ × ℕ)
  | 0, _, _, _, _ => none
  | k + 1, type, idx, startRgn, endRgn =>
    if idx < type.cnt then
      let rgn := type.region idx
      let rbase := rgn.base
      let rend := rbase + rgn.size
      if rbase ≥ fin then some (type, startRgn, endRgn)
      else if rend ≤ base then isolateLoop base fin k type (idx + 1) startRgn endRgn
      else if rbase < base then
        let type := { type with
          regions := type.regions.set idx { rgn with base := base, size := rgn.size - (base - rbase) }
          totalSize := type.totalSize - (base - rbase) }
        match insertRegion type idx rbase (base - rbase) rgn.flags with
        | none => none
        | some type => isolateLoop base fin k type (idx + 1) startRgn endRgn
      else if rend > fin then
        let type := { type with
          regions := type.regions.set idx { rgn with base := fin, size := rgn.size - (fin - rbase) }
          totalSize := type.totalSize - (fin - rbase) }
        match insertRegion type idx rbase (fin - rbase) rgn.flags with
        | none => none
        | some type => isolateLoop base fin k type idx startRgn endRgn
      else
        isolateLoop base fin k type (idx + 1) (if endRgn = 0 then idx else startRgn) (idx + 1)
    else some (type, startRgn, endRgn)

/-- `memblock_isolate_range`: the state, the return value, `*start_rgn` and `*end_rgn`. A region is
visited at most three times. -/
def isolateRange (n : ℕ) (s : State) (kind : Kind) (base size : ℕ) :
    Option (State × ℤ × ℕ × ℕ) :=
  let size := capSize base size
  let fin := base + size
  if size = 0 then some (s, 0, 0, 0)
  else
    match growArray double kind 2 base size n s with
    | none => none
    | some (s, false) => some (s, -ENOMEM, 0, 0)
    | some (s, true) =>
      (isolateLoop base fin (3 * (s.type kind).cnt + 1) (s.type kind) 0 0 0).map
        fun (type, startRgn, endRgn) => (s.setType kind type, 0, startRgn, endRgn)

/-- `memblock_remove_region`. -/
def removeRegion (type : MemblockType) (r : ℕ) : MemblockType :=
  let regions := type.regions.eraseIdx r
  { type with
    regions := if regions.length = 0 then [⟨0, 0, 0⟩] else regions
    totalSize := type.totalSize - (type.region r).size }

/-- The loop of `memblock_remove_range`, `k` rounds: `i` runs from `start_rgn + k - 1` down. -/
def removeLoop (startRgn : ℕ) : ℕ → MemblockType → MemblockType
  | 0, type => type
  | k + 1, type => removeLoop startRgn k (removeRegion type (startRgn + k))

/-- `memblock_remove_range`. -/
def removeRange (n : ℕ) (s : State) (kind : Kind) (base size : ℕ) : Option (State × ℤ) :=
  match isolateRange double n s kind base size with
  | none => none
  | some (s, ret, startRgn, endRgn) =>
    if ret ≠ 0 then some (s, ret)
    else some (s.setType kind (removeLoop startRgn (endRgn - startRgn) (s.type kind)), 0)

end

/-! ### Growing an array -/

/-- The size in bytes of an array of `max` regions, in a `phys_addr_t`. -/
def arraySize (max : ℕ) : ℕ := max * regionBytes % 2 ^ 32

section

variable (c : Config)

/-- The search of `memblock_double_array` for a place of the new array. -/
def findNewArray (s : State) (kind : Kind) (newAreaStart newAreaSize newAllocSize : ℕ) : ℕ :=
  let start := if kind ≠ .reserved then 0 else newAreaStart
  let size := if kind ≠ .reserved then 0 else newAreaSize
  let addr := findInRange c s ((start + size) % 2 ^ 32) s.currentLimit newAllocSize PAGE_SIZE
  if addr = 0 ∧ size ≠ 0 then findInRange c s 0 (min start s.currentLimit) newAllocSize PAGE_SIZE
  else addr

/-- `memblock_double_array`, with at most `n` nested calls and rounds. -/
def doubleArray : ℕ → State → Kind → (newAreaStart newAreaSize : ℕ) → Option (State × Bool)
  | 0, _, _, _, _ => none
  | n + 1, s, kind, newAreaStart, newAreaSize =>
    let type := s.type kind
    let oldSize := arraySize type.max
    let newSize := oldSize <<< 1 % 2 ^ 32
    let oldAllocSize := PAGE_ALIGN oldSize
    let newAllocSize := PAGE_ALIGN newSize
    let addr := findNewArray c s kind newAreaStart newAreaSize newAllocSize
    if addr = 0 then some (s, false)
    else
      let s := s.setType kind { type with max := type.max <<< 1, array := some addr }
      let freed :=
        match type.array with
        | none => some s
        | some old =>
          (removeRange (doubleArray n) n s .reserved old oldAllocSize).map fun (s, ret) =>
            if ret = 0 then { s with log := s.log ++ [TableEvent.free old oldAllocSize] } else s
      match freed with
      | none => none
      | some s =>
        match addRange (doubleArray n) n s .reserved addr newAllocSize 0 with
        | none => none
        | some (s, ret) =>
          if ret ≠ 0 then none
          else some ({ s with log := s.log ++ [TableEvent.reserve addr newAllocSize] }, true)

/-! ### The interface -/

def memblockAdd (n : ℕ) (s : State) (base size : ℕ) : Option (State × ℤ) :=
  addRange (doubleArray c n) n s .memory base size 0

def memblockReserve (n : ℕ) (s : State) (base size : ℕ) : Option (State × ℤ) :=
  addRange (doubleArray c n) n s .reserved base size 0

def memblockFree (n : ℕ) (s : State) (base size : ℕ) : Option (State × ℤ) :=
  removeRange (doubleArray c n) n s .reserved base size

/-- `alloc = memblock_find_in_range_node(..)` and the reservation of what it finds; `0` where one of
the two fails. -/
def findAndReserve (n : ℕ) (s : State) (size align start fin : ℕ) : Option (State × ℕ) :=
  let found := findInRangeNode c s size align start fin
  if found = 0 then some (s, 0)
  else (memblockReserve c n s found size).map fun (s, ret) => (s, if ret = 0 then found else 0)

/-- `memblock_alloc_internal`, with the physical address as its result. -/
def allocInternal (n : ℕ) (s : State) (size align minAddr maxAddr : ℕ) :
    Option (State × ℕ) :=
  let maxAddr := if maxAddr > s.currentLimit then s.currentLimit else maxAddr
  match findAndReserve c n s size align minAddr maxAddr with
  | none => none
  | some (s, alloc) =>
    if alloc ≠ 0 then some (s, alloc)
    else if minAddr ≠ 0 then findAndReserve c n s size align 0 maxAddr
    else some (s, 0)

/-- `memblock_alloc_try_nid`: the virtual address, `NULL` if the allocation failed. -/
def memblockAllocTryNid (n : ℕ) (s : State) (size align minAddr maxAddr : ℕ) :
    Option (State × ℕ) :=
  (allocInternal c n s size align minAddr maxAddr).map fun (s, alloc) =>
    (s, if alloc = 0 then 0 else c.physToVirt alloc)

/-- `memblock_phys_alloc`, through `memblock_alloc_range_nid`. -/
def memblockPhysAlloc (n : ℕ) (s : State) (size align : ℕ) : Option (State × ℕ) :=
  findAndReserve c n s size align 0 MEMBLOCK_ALLOC_ACCESSIBLE

end

end HardStack.Memblock.Model
