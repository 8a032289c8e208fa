import HardStack.Vmalloc.Model

/-! # `vmalloc` and `vfree` of `Memory-Allocator/vmalloc/vmalloc_userspace`

The page tables of `include/linux/buddy.h` and the part of `mm/vmalloc.c` over them, for the 32-bit
build of the Makefile. A `struct page *` is the frame number of its page, a `pte_t *` a frame and the
number of a word in it, a `pmd_t *` the number of a word of `swapper_pg_dir`; the entry of a
`pgd_t` is two words wide. Different frames do not overlap, and neither do different objects.

The page allocator and the slab allocator answer from a list of answers to come, `0` for `NULL`. An
answer that is already in use is against their contract, and then the call has no result (`none`).
It also has none where the code stops at a `BUG()`, reads through `NULL` or runs out of fuel. -/

namespace HardStack.Vmalloc.Paging

open HardStack.Lib.Word HardStack.Vmalloc.Model

/-! ### Configuration -/

def PAGE_SHIFT : ℕ := 12
def PAGE_SIZE : ℕ := 2 ^ PAGE_SHIFT
def PGDIR_SHIFT : ℕ := 21
def PGDIR_SIZE : ℕ := 2 ^ PGDIR_SHIFT
def PUD_SIZE : ℕ := 2 ^ PGDIR_SHIFT
def PMD_SIZE : ℕ := 2 ^ 21
def PTRS_PER_PTE : ℕ := 512
def PTE_HWTABLE_OFF : ℕ := PTRS_PER_PTE * 4

def PHYS_OFFSET : ℕ := 0x60000000
def MEMORY_SIZE : ℕ := 0x1000000
def PAGE_OFFSET : ℕ := PHYS_OFFSET + 0x20000000
def PFN_OFFSET : ℕ := PHYS_OFFSET / PAGE_SIZE
def totalramPages : ℕ := MEMORY_SIZE / PAGE_SIZE
def highMemory : ℕ := PAGE_OFFSET + MEMORY_SIZE

def VMALLOC_OFFSET : ℕ := 8 * 1024 * 1024
def VMALLOC_START : ℕ := (highMemory + VMALLOC_OFFSET) &&& notW 32 (VMALLOC_OFFSET - 1)
def VMALLOC_END : ℕ := 0xff800000

/-- `PMD_TYPE_TABLE | PMD_BIT4 | PMD_DOMAIN(DOMAIN_KERNEL)` -/
def _PAGE_KERNEL_TABLE : ℕ := 1 ||| 1 <<< 4 ||| 2 <<< 5

/-- `pgprot_kernel`, which `vmalloc_init` sets, with `L_PTE_XN`. -/
def PAGE_KERNEL : ℕ := 1 <<< 0 ||| 1 <<< 1 ||| 1 <<< 6 ||| 1 <<< 9

def VM_IOREMAP : ℕ := 0x1
def VM_ALLOC : ℕ := 0x2
def VM_UNINITIALIZED : ℕ := 0x20
def VM_NO_GUARD : ℕ := 0x40

def VM_LAZY_FREE : ℕ := 0x02
def VM_VM_AREA : ℕ := 0x04

def ENOMEM : ℤ := 12
def EBUSY : ℤ := 16

/-! ### Page and slab allocator -/

/-- What an array came from. -/
inductive Ptr
  | slab (x : ℕ)
  | vmalloc (addr : ℕ)
deriving DecidableEq

/-- Both allocators: the answers to come, what is in use, and what has been freed, in order. -/
structure Heap where
  pageAnswers : List ℕ
  livePages : List ℕ
  freedPages : List ℕ
  objAnswers : List ℕ
  liveObjs : List ℕ
  freedObjs : List Ptr

/-- The frames of `mem_map`. -/
def Managed (p : ℕ) : Prop := PFN_OFFSET ≤ p ∧ p < PFN_OFFSET + totalramPages

instance (p : ℕ) : Decidable (Managed p) := inferInstanceAs (Decidable (_ ∧ _))

def allocPage (h : Heap) : Option (ℕ × Heap) :=
  match h.pageAnswers with
  | [] => none
  | p :: rest =>
    if p = 0 then some (0, { h with pageAnswers := rest })
    else if Managed p ∧ p ∉ h.livePages then
      some (p, { h with pageAnswers := rest, livePages := p :: h.livePages })
    else none

def freePages (h : Heap) (page : ℕ) : Heap :=
  { h with livePages := h.livePages.erase page, freedPages := h.freedPages ++ [page] }

/-- Objects are aligned to words. -/
def kmalloc (h : Heap) : Option (ℕ × Heap) :=
  match h.objAnswers with
  | [] => none
  | x :: rest =>
    if x = 0 then some (0, { h with objAnswers := rest })
    else if 4 ∣ x ∧ x ∉ h.liveObjs then
      some (x, { h with objAnswers := rest, liveObjs := x :: h.liveObjs })
    else none

/-- `kfree`. Of an address that is not in the direct mapping, `virt_to_head_page` makes an entry
outside `mem_map`, and what follows is undefined; here it has no effect. -/
def kfree (h : Heap) : Option Ptr → Heap
  | none => h
  | some (.slab x) =>
    { h with liveObjs := h.liveObjs.erase x, freedObjs := h.freedObjs ++ [.slab x] }
  | some (.vmalloc addr) => { h with freedObjs := h.freedObjs ++ [.vmalloc addr] }

/-! ### Page tables -/

/-- The words of `swapper_pg_dir`, and the words of the frames that hold page tables. -/
structure Tables where
  dir : ℕ → ℕ
  pte : ℕ → ℕ → ℕ

def pgdOffsetK (addr : ℕ) : ℕ := 2 * (addr / 2 ^ PGDIR_SHIFT)

/-- `pgd_addr_end`, `pud_addr_end` and `pmd_addr_end`, for entries that map `size` bytes. -/
def addrEnd (size addr stop : ℕ) : ℕ :=
  let boundary := addW 32 addr size &&& notW 32 (size - 1)
  if (boundary + 2 ^ 32 - 1) % 2 ^ 32 < (stop + 2 ^ 32 - 1) % 2 ^ 32 then boundary else stop

def pgdAddrEnd : ℕ → ℕ → ℕ := addrEnd PGDIR_SIZE
def pudAddrEnd : ℕ → ℕ → ℕ := addrEnd PUD_SIZE
def pmdAddrEnd : ℕ → ℕ → ℕ := addrEnd PMD_SIZE

def pmdNone (t : Tables) (pmd : ℕ) : Bool := t.dir pmd = 0
def pmdBad (t : Tables) (pmd : ℕ) : Bool := t.dir pmd &&& 2 ≠ 0

def pmdClear (t : Tables) (pmd : ℕ) : Tables :=
  { t with dir := Function.update (Function.update t.dir pmd 0) (pmd + 1) 0 }

def pmdNoneOrClearBad (t : Tables) (pmd : ℕ) : Tables × Bool :=
  if pmdNone t pmd then (t, true)
  else if pmdBad t pmd then (pmdClear t pmd, true)
  else (t, false)

/-- `pmd_page_vaddr` and the index. -/
def pteOffsetKernel (t : Tables) (pmd addr : ℕ) : ℕ × ℕ :=
  (t.dir pmd / 2 ^ PAGE_SHIFT, addr / 2 ^ PAGE_SHIFT % PTRS_PER_PTE)

def pteNone (t : Tables) (pte : ℕ × ℕ) : Bool := t.pte pte.1 pte.2 = 0

def setPte (t : Tables) (pte : ℕ × ℕ) (v : ℕ) : Tables :=
  { t with pte := Function.update t.pte pte.1 (Function.update (t.pte pte.1) pte.2 v) }

def ptepGetAndClear (t : Tables) (pte : ℕ × ℕ) : Tables :=
  if t.pte pte.1 pte.2 ≠ 0 then setPte t pte 0 else t

def mkPte (page prot : ℕ) : ℕ := (page * 2 ^ PAGE_SHIFT ||| prot) % 2 ^ 32

/-- The `do … while (p++, addr = next, addr != end)` loop over the entries of one level, which are
`stride` words wide; it stops at the first error. -/
def levelLoop {S : Type} (next : ℕ → ℕ → ℕ) (stride : ℕ)
    (body : S → (entry addr next : ℕ) → Option (S × ℤ)) :
    ℕ → S → (entry addr stop : ℕ) → Option (S × ℤ)
  | 0, _, _, _, _ => none
  | n + 1, s, entry, addr, stop => do
    let (s, err) ← body s entry addr (next addr stop)
    if err ≠ 0 then some (s, err)
    else if next addr stop ≠ stop then
      levelLoop next stride body n s (entry + stride) (next addr stop) stop
    else some (s, 0)

/-! ### Unmapping -/

def vunmapPteLoop : ℕ → Tables → ℕ × ℕ → (addr stop : ℕ) → Option Tables
  | 0, _, _, _, _ => none
  | n + 1, t, pte, addr, stop =>
    let t := ptepGetAndClear t pte
    let addr := addW 32 addr PAGE_SIZE
    if addr ≠ stop then vunmapPteLoop n t (pte.1, pte.2 + 1) addr stop else some t

def vunmapPteRange (fuel : ℕ) (t : Tables) (pmd addr stop : ℕ) : Option Tables :=
  vunmapPteLoop fuel t (pteOffsetKernel t pmd addr) addr stop

/-- The body of the loop of `vunmap_pmd_range`. -/
def vunmapPmd (fuel : ℕ) (t : Tables) (pmd addr next : ℕ) : Option (Tables × ℤ) :=
  let (t, skip) := pmdNoneOrClearBad t pmd
  if skip then some (t, 0) else (vunmapPteRange fuel t pmd addr next).map (·, 0)

def vunmapPmdRange (fuel : ℕ) : Tables → (pud addr stop : ℕ) → Option (Tables × ℤ) :=
  levelLoop pmdAddrEnd 1 (vunmapPmd fuel) fuel

/-- `pud_none` and `pud_bad` are `0`. -/
def vunmapPudRange (fuel : ℕ) : Tables → (pgd addr stop : ℕ) → Option (Tables × ℤ) :=
  levelLoop pudAddrEnd 2 (vunmapPmdRange fuel) fuel

def vunmapPageRange (fuel : ℕ) (t : Tables) (addr stop : ℕ) : Option Tables :=
  if addr ≥ stop then none
  else (levelLoop pgdAddrEnd 2 (vunmapPudRange fuel) fuel t (pgdOffsetK addr) addr stop).map
    Prod.fst

/-! ### Mapping -/

/-- The tables, the allocators and the running index into the array of pages. -/
structure Walk where
  tables : Tables
  heap : Heap
  nr : ℕ

/-- `__pte_alloc_kernel`: the new table is cleared and written to the directory. The second test of
`pmd_none` is after the one of `pte_alloc_kernel`. -/
def pteAllocNew (w : Walk) (pmd : ℕ) : Option (Walk × ℤ) := do
  let (new, heap) ← allocPage w.heap
  if new = 0 then some ({ w with heap := heap }, -ENOMEM)
  else
    let pmdval := (new * 2 ^ PAGE_SHIFT + PTE_HWTABLE_OFF ||| _PAGE_KERNEL_TABLE) % 2 ^ 32
    some ({ w with
      heap := heap
      tables.pte := Function.update w.tables.pte new fun _ => 0
      tables.dir := Function.update w.tables.dir pmd pmdval }, 0)

/-- `pte_alloc_kernel`, `none` for `NULL`. -/
def pteAllocKernel (w : Walk) (pmd addr : ℕ) : Option (Walk × Option (ℕ × ℕ)) :=
  if pmdNone w.tables pmd then do
    let (w, err) ← pteAllocNew w pmd
    some (w, if err ≠ 0 then none else some (pteOffsetKernel w.tables pmd addr))
  else some (w, some (pteOffsetKernel w.tables pmd addr))

def vmapPteLoop (prot : ℕ) (pages : ℕ → ℕ) : ℕ → Walk → ℕ × ℕ → (addr stop : ℕ) →
    Option (Walk × ℤ)
  | 0, _, _, _, _ => none
  | n + 1, w, pte, addr, stop =>
    let page := pages w.nr
    if ¬ pteNone w.tables pte then some (w, -EBUSY)
    else if page = 0 then some (w, -ENOMEM)
    else
      let w := { w with tables := setPte w.tables pte (mkPte page prot), nr := w.nr + 1 }
      let addr := addW 32 addr PAGE_SIZE
      if addr ≠ stop then vmapPteLoop prot pages n w (pte.1, pte.2 + 1) addr stop else some (w, 0)

def vmapPteRange (prot : ℕ) (pages : ℕ → ℕ) (fuel : ℕ) (w : Walk) (pmd addr stop : ℕ) :
    Option (Walk × ℤ) := do
  let (w, pte) ← pteAllocKernel w pmd addr
  match pte with
  | none => some (w, -ENOMEM)
  | some pte => vmapPteLoop prot pages fuel w pte addr stop

/-- The upper levels turn each error of the level below into `-ENOMEM`. -/
def toENOMEM (r : Walk × ℤ) : Walk × ℤ := (r.1, if r.2 ≠ 0 then -ENOMEM else 0)

def vmapPmdRange (prot : ℕ) (pages : ℕ → ℕ) (fuel : ℕ) (w : Walk) (pud addr stop : ℕ) :
    Option (Walk × ℤ) :=
  (levelLoop pmdAddrEnd 1 (vmapPteRange prot pages fuel) fuel w pud addr stop).map toENOMEM

def vmapPudRange (prot : ℕ) (pages : ℕ → ℕ) (fuel : ℕ) (w : Walk) (pgd addr stop : ℕ) :
    Option (Walk × ℤ) :=
  (levelLoop pudAddrEnd 2 (vmapPmdRange prot pages fuel) fuel w pgd addr stop).map toENOMEM

/-- `vmap_page_range_noflush`: the error, or the number of pages. -/
def vmapPageRange (prot : ℕ) (pages : ℕ → ℕ) (fuel : ℕ) (t : Tables) (h : Heap)
    (addr stop : ℕ) : Option (Walk × ℤ) :=
  if addr ≥ stop then none
  else do
    let (w, err) ← levelLoop pgdAddrEnd 2 (vmapPudRange prot pages fuel) fuel ⟨t, h, 0⟩
      (pgdOffsetK addr) addr stop
    some (w, if err ≠ 0 then err else (w.nr : ℤ))

/-! ### Reading through the tables -/

/-- `phys_to_virt`; `memory` is the address of the array that stands for the physical memory. -/
def physToVirt (memory x : ℕ) : ℕ := (x + (2 ^ 32 - PHYS_OFFSET) + memory) % 2 ^ 32

def pageAddress (memory page : ℕ) : ℕ := physToVirt memory (page * 2 ^ PAGE_SHIFT)

/-- `mmu_vaddr_to_addr`, `none` for `NULL`. `pgd_none` and `pud_none` are `0`. -/
def mmuVaddrToAddr (memory : ℕ) (t : Tables) (vaddr : ℕ) : Option ℕ :=
  let pmd := pgdOffsetK vaddr
  if pmdNone t pmd then none
  else
    let pte := pteOffsetKernel t pmd vaddr
    if pteNone t pte then none
    else
      let addr := t.pte pte.1 pte.2 &&& notW 32 (PAGE_SIZE - 1)
      let addr := addr ||| (vaddr &&& (PAGE_SIZE - 1))
      some (physToVirt memory addr)

/-! ### `struct vm_struct` -/

/-- `struct vm_struct`, with the array that `pages` points to. -/
structure VmStruct where
  addr : ℕ
  size : ℕ
  flags : ℕ
  pages : Option Ptr
  page : ℕ → ℕ
  nrPages : ℕ

def getVmAreaSize (vm : VmStruct) : ℕ :=
  if vm.flags &&& VM_NO_GUARD = 0 then vm.size - PAGE_SIZE else vm.size

/-- The globals of `vmalloc.c`, the field `vm` of the areas, all `struct vm_struct`, the page tables
and the allocators. -/
structure Machine where
  vm : Vm
  vmOf : ℕ → ℕ
  vmStruct : ℕ → VmStruct
  tables : Tables
  heap : Heap

def Machine.setStruct (m : Machine) (area : ℕ) (s : VmStruct) : Machine :=
  { m with vmStruct := Function.update m.vmStruct area s }

def setupVmallocVm (m : Machine) (area va flags : ℕ) : Machine :=
  let m := m.setStruct area { m.vmStruct area with
    flags := flags, addr := m.vm.vaStart va, size := m.vm.vaEnd va - m.vm.vaStart va }
  { m with
    vmOf := Function.update m.vmOf va area
    vm.flags := Function.update m.vm.flags va (m.vm.flags va ||| VM_VM_AREA) }

/-- `PAGE_ALIGN` -/
def pageAlign (x : ℕ) : ℕ := alignUp 32 x PAGE_SIZE

/-- The alignment that `__get_vm_area_node` asks for. -/
def areaAlign (size align flags : ℕ) : ℕ :=
  if flags &&& VM_IOREMAP ≠ 0 then 2 ^ min (max (Nat.clog 2 size) PAGE_SHIFT) 24 else align

/-- `__get_vm_area_node`: the new `struct vm_struct`, `0` for `NULL`. -/
def getVmAreaNode (fuel : ℕ) (m : Machine) (size align flags start stop : ℕ) :
    Option (Machine × ℕ) := do
  let size := pageAlign size
  if size = 0 then some (m, 0)
  else
    let align := areaAlign size align flags
    let (area, heap) ← kmalloc m.heap
    let m := { m with heap := heap }
    if area = 0 then some (m, 0)
    else
      let m := m.setStruct area ⟨0, 0, 0, none, fun _ => 0, 0⟩
      let size := if flags &&& VM_NO_GUARD = 0 then addW 32 size PAGE_SIZE else size
      let (va, heap) ← kmalloc m.heap
      let (vm, found) ← allocVmapArea 32 fuel m.vm va size align start stop
      let m := { m with heap := heap, vm := vm }
      match found with
      | none => some ({ m with heap := kfree m.heap (some (.slab area)) }, 0)
      | some va => some (setupVmallocVm m area va flags, area)

/-! ### Releasing -/

/-- `free_unmap_vmap_area` -/
def freeUnmapVmapArea (fuel : ℕ) (m : Machine) (va : ℕ) : Option Machine := do
  let tables ← vunmapPageRange fuel m.tables (m.vm.vaStart va) (m.vm.vaEnd va)
  let vm ← freeVmapArea fuel m.vm va
  some { m with tables := tables, vm := vm, heap := kfree m.heap (some (.slab va)) }

/-- `remove_vm_area`; no caller uses its result. -/
def removeVmArea (fuel : ℕ) (m : Machine) (addr : ℕ) : Option Machine := do
  let va ← findVmapArea fuel m.vm addr
  if va ≠ 0 ∧ m.vm.flags va &&& VM_VM_AREA ≠ 0 then
    let m := { m with
      vmOf := Function.update m.vmOf va 0
      vm.flags := Function.update m.vm.flags va
        ((m.vm.flags va &&& notW 32 VM_VM_AREA) ||| VM_LAZY_FREE) }
    freeUnmapVmapArea fuel m va
  else some m

/-- `__free_pages` of the pages of the array from `i` on. -/
def freeArray (page : ℕ → ℕ) : (n i : ℕ) → Heap → Option Heap
  | 0, _, h => some h
  | n + 1, i, h => if page i = 0 then none else freeArray page n (i + 1) (freePages h (page i))

def kvfree : Heap → Option Ptr → Heap := kfree

def vunmap (fuel : ℕ) (m : Machine) (addr : ℕ) (deallocatePages : Bool) : Option Machine := do
  if addr = 0 then some m
  else if addr % PAGE_SIZE ≠ 0 then some m
  else
    let va ← findVmapArea fuel m.vm addr
    if va = 0 then none
    else
      let area := m.vmOf va
      if area = 0 then some m
      else
        let m ← removeVmArea fuel m addr
        let s := m.vmStruct area
        let heap ← if deallocatePages then
            (freeArray s.page s.nrPages 0 m.heap).map fun h => kvfree h s.pages
          else some m.heap
        some { m with heap := kfree heap (some (.slab area)) }

def vfree (fuel : ℕ) (m : Machine) (addr : ℕ) : Option Machine :=
  if addr = 0 then some m else vunmap fuel m addr true

/-! ### Allocation -/

/-- The array for the pages: small ones come from `kmalloc_node`, large ones from `__vmalloc_node`. -/
def allocArray (vmallocNode : Machine → ℕ → Option (Machine × ℕ)) (m : Machine) (arraySize : ℕ) :
    Option (Machine × Option Ptr) :=
  if arraySize > PAGE_SIZE then
    (vmallocNode m arraySize).map fun r => (r.1, if r.2 = 0 then none else some (.vmalloc r.2))
  else
    (kmalloc m.heap).map fun r =>
      ({ m with heap := r.2 }, if r.1 = 0 then none else some (.slab r.1))

/-- The loop over `alloc_page`, from `i` on; `false` for `goto fail`. -/
def fillArray : (n i : ℕ) → Heap → VmStruct → Option (Heap × VmStruct × Bool)
  | 0, _, h, s => some (h, s, true)
  | n + 1, i, h, s => do
    let (page, h) ← allocPage h
    if page = 0 then some (h, { s with nrPages := i }, false)
    else fillArray n (i + 1) h { s with page := Function.update s.page i page }

def mapVmArea (fuel : ℕ) (m : Machine) (area : VmStruct) (prot : ℕ) (pages : ℕ → ℕ) :
    Option (Machine × ℤ) := do
  let (w, err) ← vmapPageRange prot pages fuel m.tables m.heap area.addr
    (addW 32 area.addr (getVmAreaSize area))
  some ({ m with tables := w.tables, heap := w.heap }, if err > 0 then 0 else err)

/-- `__vmalloc_area_node` from the loop over the pages on. -/
def vmallocAreaPages (fuel : ℕ) (m : Machine) (area : ℕ) : Option (Machine × ℕ) := do
  let (heap, s, filled) ← fillArray (m.vmStruct area).nrPages 0 m.heap (m.vmStruct area)
  let m := { m with heap := heap }.setStruct area s
  if filled then
    let (m, err) ← mapVmArea fuel m s PAGE_KERNEL s.page
    if err ≠ 0 then (vfree fuel m s.addr).map (·, 0) else some (m, s.addr)
  else (vfree fuel m s.addr).map (·, 0)

def vmallocAreaNode (vmallocNode : Machine → ℕ → Option (Machine × ℕ)) (fuel : ℕ) (m : Machine)
    (area : ℕ) : Option (Machine × ℕ) := do
  let nrPages := getVmAreaSize (m.vmStruct area) / 2 ^ PAGE_SHIFT
  let m := m.setStruct area { m.vmStruct area with nrPages := nrPages }
  let (m, pages) ← allocArray vmallocNode m (nrPages * 4 % 2 ^ 32)
  let m := m.setStruct area { m.vmStruct area with pages := pages }
  if pages = none then
    let m ← removeVmArea fuel m (m.vmStruct area).addr
    some ({ m with heap := kfree m.heap (some (.slab area)) }, 0)
  else vmallocAreaPages fuel m area

def clearVmUninitializedFlag (m : Machine) (area : ℕ) : Machine :=
  m.setStruct area { m.vmStruct area with
    flags := (m.vmStruct area).flags &&& notW 32 VM_UNINITIALIZED }

/-- `__vmalloc_node_range`, as `__vmalloc_node` calls it. The first argument bounds the depth of the
recursion for the arrays. -/
def vmallocNodeRange (fuel : ℕ) : ℕ → Machine → ℕ → Option (Machine × ℕ)
  | 0, _, _ => none
  | d + 1, m, size => do
    let size := pageAlign size
    if size = 0 ∨ size / 2 ^ PAGE_SHIFT > totalramPages then some (m, 0)
    else
      let (m, area) ← getVmAreaNode fuel m size 1 (VM_ALLOC ||| VM_UNINITIALIZED) VMALLOC_START
        VMALLOC_END
      if area = 0 then some (m, 0)
      else
        let (m, addr) ← vmallocAreaNode (vmallocNodeRange fuel d) fuel m area
        if addr = 0 then some (m, 0) else some (clearVmUninitializedFlag m area, addr)

def vmalloc (fuel : ℕ) (m : Machine) (size : ℕ) : Option (Machine × ℕ) :=
  vmallocNodeRange fuel fuel m size

end HardStack.Vmalloc.Paging
