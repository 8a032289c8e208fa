import HardStack.Buddy.HighMemModel

/-! # The persistent kmap area of `Memory-Allocator/KMAP-MEMAT/kmap_userspace`

`mm/highmem.c`, `include/linux/highmem.h` and the page table macros of `include/linux/pgtable.h`. A
`struct page *` is its page frame number; its address, which the hash of the page table of addresses
reads, is `mem_map + 32 * (pfn - PFN_OFFSET)`. A list of `page_address_map`s is the list of their
indices, first entry first. An address is a number and `NULL` is `0`. -/

namespace HardStack.Kmap.Model

open HardStack.Buddy.Model (PAGE_SHIFT)

/-! ### Configuration and macros -/

/-- The memory of the HighMem buddy allocator, the address of its buffer (where `mem_map` starts) and
`CONFIG_PAGE_OFFSET`, with the kmap area below it. -/
structure Config extends Buddy.HighMemModel.Config where
  MMU_PAGE_OFFSET : ℕ
  memory : ℕ
  offset_room : 2 ^ 21 < MMU_PAGE_OFFSET
  offset_lt : MMU_PAGE_OFFSET ≤ 2 ^ 32

def PTRS_PER_PTE : ℕ := 512
def PMD_SHIFT : ℕ := 21
def PMD_SIZE : ℕ := 1 <<< PMD_SHIFT
def LAST_PKMAP : ℕ := PTRS_PER_PTE
def LAST_PKMAP_MASK : ℕ := LAST_PKMAP - 1
def PA_HASH_ORDER : ℕ := 7
def GOLDEN_RATIO_32 : ℕ := 0x61C88647
def INT_MAX : ℤ := 2 ^ 31 - 1

def L_PTE_PRESENT : ℕ := 1 <<< 0
def L_PTE_YOUNG : ℕ := 1 <<< 1
def L_PTE_DIRTY : ℕ := 1 <<< 6
def L_PTE_XN : ℕ := 1 <<< 9

/-- `pgprot_kernel`, as `page_address_init` sets it. -/
def pgprotKernel : ℕ := L_PTE_PRESENT ||| L_PTE_YOUNG ||| L_PTE_DIRTY
def PAGE_KERNEL : ℕ := pgprotKernel ||| L_PTE_XN
def kmapProt : ℕ := PAGE_KERNEL

def mkPte (page prot : ℕ) : ℕ := (page <<< PAGE_SHIFT) ||| prot
def ptePfn (pte : ℕ) : ℕ := pte >>> PAGE_SHIFT
def ptePage (pte : ℕ) : ℕ := ptePfn pte

def hash32 (val bits : ℕ) : ℕ := (val * GOLDEN_RATIO_32 % 2 ^ 32) >>> (32 - bits)

namespace Config

variable (c : Config)

def PKMAP_BASE : ℕ := c.MMU_PAGE_OFFSET - PMD_SIZE
def PKMAP_NR (virt : ℕ) : ℕ := (virt - c.PKMAP_BASE) >>> PAGE_SHIFT
def PKMAP_ADDR (nr : ℕ) : ℕ := c.PKMAP_BASE + nr <<< PAGE_SHIFT

/-- The address of the page struct. -/
def pagePtr (page : ℕ) : ℕ := c.memory + 32 * (page - c.PFN_OFFSET)

/-- The bucket of a page, `page_slot`. -/
def pageSlot (page : ℕ) : ℕ := hash32 (c.pagePtr page) PA_HASH_ORDER

def PageHighMem (page : ℕ) : Bool := c.pageZone page != .normal

def lowmemPageAddress (page : ℕ) : ℕ := (page <<< PAGE_SHIFT) - c.PHYS_OFFSET + c.memory

end Config

/-! ### State -/

/-- `struct page_address_map` without its list node. -/
structure PageAddressMap where
  page : ℕ
  virt : ℕ
  deriving DecidableEq

structure State where
  pkmapCount : ℕ → ℤ
  pkmapPageTable : ℕ → ℕ
  pageAddressMaps : ℕ → PageAddressMap
  pageAddressHtable : ℕ → List ℕ
  /-- the static variable of `get_next_pkmap_nr` -/
  lastPkmapNr : ℕ

/-- The zeroed statics, after `page_address_init` and `kmap_init`. -/
def init : State where
  pkmapCount := fun _ => 0
  pkmapPageTable := fun _ => 0
  pageAddressMaps := fun _ => ⟨0, 0⟩
  pageAddressHtable := fun _ => []
  lastPkmapNr := 0

section

variable (c : Config)

/-- The first map of the list that is for the page. -/
def findMap (s : State) (page : ℕ) (list : List ℕ) : Option ℕ :=
  list.find? fun i => (s.pageAddressMaps i).page == page

def pageAddress (s : State) (page : ℕ) : ℕ :=
  if !c.PageHighMem page then c.lowmemPageAddress page
  else
    match findMap s page (s.pageAddressHtable (c.pageSlot page)) with
    | some i => (s.pageAddressMaps i).virt
    | none => 0

/-- `set_page_address`: a virtual address is added, `NULL` removes. -/
def setPageAddress (s : State) (page virt : ℕ) : State :=
  if !c.PageHighMem page then s
  else
    let pas := c.pageSlot page
    if virt ≠ 0 then
      let pam := c.PKMAP_NR virt
      { s with
        pageAddressMaps := Function.update s.pageAddressMaps pam ⟨page, virt⟩
        pageAddressHtable :=
          Function.update s.pageAddressHtable pas (s.pageAddressHtable pas ++ [pam]) }
    else
      match findMap s page (s.pageAddressHtable pas) with
      | some pam =>
        { s with
          pageAddressHtable :=
            Function.update s.pageAddressHtable pas ((s.pageAddressHtable pas).erase pam) }
      | none => s

/-! ### Mapping and unmapping -/

/-- One round of the loop of `flush_all_zero_pkmaps`. -/
def flushPkmap (s : State) (i : ℕ) : State :=
  if s.pkmapCount i ≠ 1 then s
  else
    let page := ptePage (s.pkmapPageTable i)
    let s := { s with
      pkmapCount := Function.update s.pkmapCount i 0
      pkmapPageTable := Function.update s.pkmapPageTable i 0 }
    setPageAddress c s page 0

def flushAllZeroPkmaps (s : State) : State := (List.range LAST_PKMAP).foldl (flushPkmap c) s

def getNextPkmapNr (s : State) : State :=
  { s with lastPkmapNr := (s.lastPkmapNr + 1) &&& LAST_PKMAP_MASK }

def noMorePkmaps (pkmapNr : ℕ) : Bool := pkmapNr == 0

/-- The loop of `map_new_virtual` from its `n`-th last round on; `count` is the local variable. With
every slot in use the loop of the source does not end, and there is no result. -/
def mapNewVirtualLoop (page : ℕ) : ℕ → State → (count : ℕ) → Option (State × ℕ)
  | 0, _, _ => none
  | n + 1, s, count =>
    let s := getNextPkmapNr s
    let (s, count) :=
      if noMorePkmaps s.lastPkmapNr then (flushAllZeroPkmaps c s, LAST_PKMAP) else (s, count)
    let nr := s.lastPkmapNr
    if s.pkmapCount nr = 0 then
      let vaddr := c.PKMAP_ADDR nr
      let s := { s with
        pkmapPageTable := Function.update s.pkmapPageTable nr (mkPte page kmapProt)
        pkmapCount := Function.update s.pkmapCount nr 1 }
      some (setPageAddress c s page vaddr, vaddr)
    else if count - 1 ≠ 0 then mapNewVirtualLoop page n s (count - 1)
    else if pageAddress c s page ≠ 0 then some (s, pageAddress c s page)
    else mapNewVirtualLoop page n s LAST_PKMAP

def mapNewVirtual (n : ℕ) (s : State) (page : ℕ) : Option (State × ℕ) :=
  mapNewVirtualLoop c page n s LAST_PKMAP

/-- `pkmap_count[nr]++`; the counter is an `int`, and beyond `INT_MAX` the program has no meaning. -/
def incCount (s : State) (nr : ℕ) : Option State :=
  if s.pkmapCount nr = INT_MAX then none
  else some { s with pkmapCount := Function.update s.pkmapCount nr (s.pkmapCount nr + 1) }

def kmapHigh (n : ℕ) (s : State) (page : ℕ) : Option (State × ℕ) :=
  let vaddr := pageAddress c s page
  if vaddr = 0 then
    match mapNewVirtual c n s page with
    | none => none
    | some (s, vaddr) => (incCount s (c.PKMAP_NR vaddr)).map fun s => (s, vaddr)
  else (incCount s (c.PKMAP_NR vaddr)).map fun s => (s, vaddr)

def kunmapHigh (s : State) (page : ℕ) : State :=
  let vaddr := pageAddress c s page
  if vaddr = 0 then s
  else
    let nr := c.PKMAP_NR vaddr
    { s with pkmapCount := Function.update s.pkmapCount nr (s.pkmapCount nr - 1) }

/-- `kmap`, as far as `n` rounds of the search go. -/
def kmap (n : ℕ) (s : State) (page : ℕ) : Option (State × ℕ) :=
  if !c.PageHighMem page then some (s, pageAddress c s page) else kmapHigh c n s page

def kunmap (s : State) (page : ℕ) : State :=
  if !c.PageHighMem page then s else kunmapHigh c s page

end

/-! ### Runs -/

/-- The kmap area together with the number of outstanding `kmap`s of every page. -/
structure System where
  st : State
  outstanding : ℕ → ℕ

/-- A page of the HighMem zone. -/
def Config.HighPage (c : Config) (page : ℕ) : Prop := c.InMemMap page ∧ c.PageHighMem page = true

/-- One call: a `kmap` that returns, or a `kunmap` of a page with an outstanding `kmap`. -/
inductive Step (c : Config) : System → System → Prop
  | kmap {s s' : State} {outstanding : ℕ → ℕ} {n page vaddr : ℕ} (hp : c.HighPage page)
      (h : Model.kmap c n s page = some (s', vaddr)) :
      Step c ⟨s, outstanding⟩ ⟨s', Function.update outstanding page (outstanding page + 1)⟩
  | kunmap {s : State} {outstanding : ℕ → ℕ} {page : ℕ} (hp : c.HighPage page)
      (h : 0 < outstanding page) :
      Step c ⟨s, outstanding⟩
        ⟨Model.kunmap c s page, Function.update outstanding page (outstanding page - 1)⟩

def Reachable (c : Config) (t : System) : Prop :=
  Relation.ReflTransGen (Step c) ⟨init, fun _ => 0⟩ t

end HardStack.Kmap.Model
