import Mathlib

/-! # The driver of `Device-Driver/CMA/Debris`

`kernel/cma.c`. Any number of processes are in `CMA_ioctl`, each at a point of its own; between two
points there is one call or one access to the region list. What a call answers comes with the event:
`copy_from_user`, `kzalloc`, `dma_alloc_from_contiguous` and `copy_to_user`. The contiguous allocator
is the ranges it has handed out; it answers with a range that is apart from all of these, or not at
all. -/

namespace HardStack.Cma.Model

def PAGE_SHIFT : ℕ := 12
def EFAULT : ℤ := 14
def ENOMEM : ℤ := 12
def EINVAL : ℤ := 22

/-- `struct CMA_info`. -/
structure Info where
  virt : ℕ
  phys : ℕ
  offset : ℕ
  length : ℕ
  deriving DecidableEq

/-- A range of the contiguous allocator: `nr_pages` pages from `page` on. -/
structure Block where
  page : ℕ
  nrPages : ℕ
  deriving DecidableEq

def Block.Apart (a b : Block) : Prop := a.page + a.nrPages ≤ b.page ∨ b.page + b.nrPages ≤ a.page

instance (a b : Block) : Decidable (a.Apart b) := inferInstanceAs (Decidable (_ ∨ _))

/-- The range that an `info` names: `phys_to_page(info.phys)` and `info.length >> PAGE_SHIFT`. -/
def Info.block (info : Info) : Block := ⟨info.phys >>> PAGE_SHIFT, info.length >>> PAGE_SHIFT⟩

def pageToPhys (page : ℕ) : ℕ := page <<< PAGE_SHIFT

/-- The commands with a branch of their own. -/
inductive Cmd
  | allocate
  | release
  deriving DecidableEq

/-- Where a process is in `CMA_ioctl`: what comes next, with the local variables it needs. -/
inductive Pc
  | user
  | allocCopy
  | allocRegion (info : Info)
  | allocDma (info : Info)
  | insert (info : Info) (page : ℕ)
  | allocCopyTo (info region : Info) (page : ℕ)
  | errTo (region : Info) (page nrPages : ℕ) (rvl : ℤ)
  | errToRelease (page nrPages : ℕ) (rvl : ℤ)
  | errDma (rvl : ℤ)
  | releaseCopy
  | search (info : Info)
  | releaseDma (info region : Info)
  | delete (region : Info)
  | unlock (rvl : ℤ)
  deriving DecidableEq

/-- The region list and the contiguous allocator; `obtained` and `released` are ghosts, all ranges that
ever came from the allocator and went back to it. -/
structure Mem where
  regions : List Info
  held : Multiset Block
  obtained : Multiset Block
  released : Multiset Block

namespace Mem

/-- `dma_alloc_from_contiguous`. -/
def obtain (mem : Mem) (block : Block) : Mem :=
  { mem with held := block ::ₘ mem.held, obtained := block ::ₘ mem.obtained }

/-- `dma_release_from_contiguous`. -/
def release (mem : Mem) (block : Block) : Mem :=
  { mem with held := mem.held.erase block, released := block ::ₘ mem.released }

/-- `list_add`. -/
def listAdd (mem : Mem) (region : Info) : Mem := { mem with regions := region :: mem.regions }

/-- `list_del`. -/
def listDel (mem : Mem) (region : Info) : Mem := { mem with regions := mem.regions.erase region }

end Mem

/-- What a call answers; `done` where there is nothing to answer. -/
inductive Answer
  | fail
  | done
  | info (info : Info)
  | page (page : ℕ)
  deriving DecidableEq

section

variable (pageToVirt : ℕ → ℕ)

/-- One step of `CMA_ioctl` between `mutex_lock` and `mutex_unlock`. -/
def inside (mem : Mem) : Pc → Answer → Option (Mem × Pc)
  | .allocCopy, .fail => some (mem, .unlock (-EFAULT))
  | .allocCopy, .info info => some (mem, .allocRegion info)
  | .allocRegion _, .fail => some (mem, .unlock (-ENOMEM))
  | .allocRegion info, .done => some (mem, .allocDma info)
  | .allocDma _, .fail => some (mem, .errDma (-ENOMEM))
  | .allocDma info, .page page =>
    let block : Block := ⟨page, info.length >>> PAGE_SHIFT⟩
    if ∀ b ∈ mem.held, block.Apart b then some (mem.obtain block, .insert info page) else none
  | .insert info page, .done =>
    let info := { info with virt := pageToVirt page, phys := pageToPhys page }
    -- the rest of the region is zeroed
    let region : Info := ⟨info.virt, info.phys, 0, info.length⟩
    some (mem.listAdd region, .allocCopyTo info region page)
  | .allocCopyTo _ _ _, .done => some (mem, .unlock 0)
  | .allocCopyTo info region page, .fail =>
    some (mem, .errTo region page (info.length >>> PAGE_SHIFT) (-EINVAL))
  | .errTo region page nrPages rvl, .done => some (mem.listDel region, .errToRelease page nrPages rvl)
  | .errToRelease page nrPages rvl, .done => some (mem.release ⟨page, nrPages⟩, .errDma rvl)
  | .errDma rvl, .done => some (mem, .unlock rvl)
  | .releaseCopy, .fail => some (mem, .unlock (-EINVAL))
  | .releaseCopy, .info info => some (mem, .search info)
  | .search info, .done =>
    match mem.regions.find? fun region => region.phys = info.phys ∧ region.length = info.length with
    | some region => some (mem, .releaseDma info region)
    | none => some (mem, .unlock (-EINVAL))
  | .releaseDma info region, .done => some (mem.release info.block, .delete region)
  | .delete region, .done => some (mem.listDel region, .unlock 0)
  | _, _ => none

end

/-- The driver between `CMA_probe` and `CMA_remove`; `entered` is a ghost, the list and the held ranges
as the holder of the lock has found them. -/
structure State where
  mem : Mem
  lock : Option ℕ
  pc : ℕ → Pc
  entered : List Info × Multiset Block

/-- After `CMA_probe`. -/
def init : State where
  mem := ⟨[], 0, 0, 0⟩
  lock := none
  pc := fun _ => .user
  entered := ([], 0)

/-- What process `p` does. -/
inductive Event
  | lock (p : ℕ) (cmd : Cmd)
  | unsupported (p : ℕ)
  | inside (p : ℕ) (answer : Answer)
  | unlock (p : ℕ)

def Cmd.start : Cmd → Pc
  | allocate => .allocCopy
  | release => .releaseCopy

/-- A step of the driver; a process that waits for the lock makes none. A command without a branch
returns `-EFAULT` before the lock. -/
def exec (pageToVirt : ℕ → ℕ) (s : State) : Event → Option State
  | .lock p cmd =>
    if s.pc p = .user ∧ s.lock = none then
      some { s with
        lock := some p
        pc := Function.update s.pc p cmd.start
        entered := (s.mem.regions, s.mem.held) }
    else none
  | .unsupported p => if s.pc p = .user then some s else none
  | .inside p answer =>
    (inside pageToVirt s.mem (s.pc p) answer).map fun r =>
      { s with mem := r.1, pc := Function.update s.pc p r.2 }
  | .unlock p =>
    match s.pc p with
    | .unlock _ => some { s with lock := none, pc := Function.update s.pc p .user }
    | _ => none

/-- `CMA_remove`, which waits for the lock: every region is freed. The loop reads the link of the
region it has just freed, which is taken to be as it was. -/
def remove (s : State) : Option State :=
  if s.lock = none then some { s with mem := { s.mem with regions := [] } } else none

end HardStack.Cma.Model
