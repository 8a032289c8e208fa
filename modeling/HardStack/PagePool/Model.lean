import HardStack.Lib.Bitmap

/-! # The page pool of `BiscuitOS-PAGING-EA-SIMPLE-ALLOCATOR`

`main.c`. The bitmap is a function of the bit, past its end too, where all is clear before the first
call. A `phys_addr_t` is a number below `2 ^ 64`, a page table a function of the address. -/

namespace HardStack.PagePool.Model

def PAGE_SHIFT : ℕ := 12
def PAGE_SIZE : ℕ := 2 ^ PAGE_SHIFT
def PFNPOOL_BASE : ℕ := 0x10000000
def ENOMEM : ℕ := 12

variable (MAX_PAGES : ℕ)

def PFNPOOL_SIZE : ℕ := MAX_PAGES * PAGE_SIZE
def MAX_BITS : ℕ := MAX_PAGES

def findFirstZeroBit (bitmap : ℕ → Bool) (size : ℕ) : ℕ := Lib.Bitmap.next (fun i => !bitmap i) size 0

def bitmapSet (bitmap : ℕ → Bool) (start nr : ℕ) : ℕ → Bool :=
  fun i => decide (start ≤ i ∧ i < start + nr) || bitmap i

/-- `alloc_phys`: the bitmap and the address. -/
def allocPhys (bitmap : ℕ → Bool) : (ℕ → Bool) × ℕ :=
  let index := findFirstZeroBit bitmap (MAX_BITS MAX_PAGES)
  if (index : ℤ) ≥ 0 then
    (bitmapSet bitmap index (index + 1), (PFNPOOL_BASE + index * PAGE_SIZE) % 2 ^ 64)
  else (bitmap, 2 ^ 64 - ENOMEM)

/-- `free_phys`. -/
def freePhys (bitmap : ℕ → Bool) (phys : ℕ) : ℕ → Bool :=
  let index := (phys - PFNPOOL_BASE) / 2 ^ PAGE_SHIFT
  bitmapSet bitmap index (index + 1)

/-- The bitmap, and the page tables: the page frame at an address. -/
structure System where
  bitmap : ℕ → Bool
  pte : ℕ → Option ℕ

/-- `unmap_pte`. -/
def unmapPte (σ : System) (addr : ℕ) : System :=
  match σ.pte addr with
  | none => σ
  | some pfn => { σ with bitmap := freePhys σ.bitmap (pfn * 2 ^ PAGE_SHIFT) }

/-- `map_pte`, with the result. -/
def mapPte (σ : System) (addr : ℕ) : System × ℤ :=
  let (bitmap, phys) := allocPhys MAX_PAGES σ.bitmap
  if phys < 0 then ({ σ with bitmap := bitmap }, -ENOMEM)
  else (⟨bitmap, Function.update σ.pte addr (some (phys / 2 ^ PAGE_SHIFT))⟩, 0)

/-- `BiscuitOS_init`. -/
def init : System := ⟨fun _ => false, fun _ => none⟩

/-! ### Runs -/

/-- A fault at an address, and the unmapping of the page there. -/
inductive Call
  | fault (addr : ℕ)
  | unmap (addr : ℕ)

/-- A fault is at an address where nothing is mapped, an unmapping where something is. -/
def Call.Allowed (σ : System) : Call → Prop
  | fault addr => σ.pte addr = none
  | unmap addr => σ.pte addr ≠ none

/-- The kernel clears the entry that `unmap_pte` has looked at. -/
def Call.exec (σ : System) : Call → System
  | fault addr => (mapPte MAX_PAGES σ addr).1
  | unmap addr => let σ := unmapPte σ addr; { σ with pte := Function.update σ.pte addr none }

/-- Every call is allowed where it is made. -/
def Valid : List Call → System → Prop
  | [], _ => True
  | call :: calls, σ => call.Allowed σ ∧ Valid calls (call.exec MAX_PAGES σ)

end HardStack.PagePool.Model
