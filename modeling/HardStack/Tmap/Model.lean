import Mathlib

/-! # Temporary mappings: `Memory-Allocator/PAGING-MECH/BiscuitOS-PAGING-EA-SIMPLE-KERNEL-ALLOCATOR`

`main.c`. A `struct vpage *` is the number of its allocation, and a list is the list of these, the first
entry first. A page table is a function of the index, and an entry holds the table below; with four levels
the `p4d` is folded, and every entry of the `pgd` holds a table. Which allocations of a page table fail is
an argument of a call. To walk through an entry that holds no table has no result. -/

namespace HardStack.Tmap.Model

def PAGE_SHIFT : ℕ := 12
def PAGE_SIZE : ℕ := 1 <<< PAGE_SHIFT
def PTRS_PER_TABLE : ℕ := 512
def EINVAL : ℤ := 22
def ENOMEM : ℤ := 12

def PAGE_ALIGN (addr : ℕ) : ℕ := (addr + (PAGE_SIZE - 1)) / PAGE_SIZE * PAGE_SIZE
def PAGE_ALIGN_DOWN (addr : ℕ) : ℕ := addr / PAGE_SIZE * PAGE_SIZE

/-! ### Page tables -/

/-- `PAGE_KERNEL` and `PAGE_KERNEL_IO`; both are writable, so that `pte_mkwrite` changes nothing. -/
inductive Prot
  | kernel
  | kernelIo
  deriving DecidableEq

/-- A present `pte_t`; a clear one is `none`. -/
structure Pte where
  pfn : ℕ
  prot : Prot
  deriving DecidableEq

/-- `pgd_t`, `p4d_t`, `pud_t` or `pmd_t`. -/
inductive Entry (α : Type)
  | none
  | bad
  | table (t : α)

abbrev PteTable := ℕ → Option Pte
abbrev PmdTable := ℕ → Entry PteTable
abbrev PudTable := ℕ → Entry PmdTable
abbrev P4dTable := ℕ → Entry PudTable
abbrev PgdTable := ℕ → Entry P4dTable

/-- The page tables that an allocation is asked for. -/
inductive Level
  | p4d
  | pud
  | pmd
  | pte
  deriving DecidableEq

def pteIndex (addr : ℕ) : ℕ := addr / 2 ^ 12 % PTRS_PER_TABLE
def pmdIndex (addr : ℕ) : ℕ := addr / 2 ^ 21 % PTRS_PER_TABLE
def pudIndex (addr : ℕ) : ℕ := addr / 2 ^ 30 % PTRS_PER_TABLE
def p4dIndex (l5 : Bool) (addr : ℕ) : ℕ := if l5 then addr / 2 ^ 39 % PTRS_PER_TABLE else 0
def pgdIndex (l5 : Bool) (addr : ℕ) : ℕ := addr / 2 ^ (if l5 then 48 else 39) % PTRS_PER_TABLE

/-- The gap from the end of a range to the start of the next one. -/
def InGap (pfnMapped : List (ℕ × ℕ)) (pfn : ℕ) : Prop :=
  ∃ i r r', pfnMapped[i]? = some r ∧ pfnMapped[i + 1]? = some r' ∧ r.2 ≤ pfn ∧ pfn < r'.1

/-- An entry of a table on a walk that only looks. -/
def see {α : Type} (g : α → Option Pte) (t : ℕ → Entry α) (i : ℕ) : Option Pte :=
  match t i with
  | .table t' => g t'
  | _ => none

/-- What the walk to the address finds. -/
def lookup (l5 : Bool) (pgd : PgdTable) (addr : ℕ) : Option Pte :=
  let inPmd (pmd : PmdTable) := see (fun pte => pte (pteIndex addr)) pmd (pmdIndex addr)
  let inPud (pud : PudTable) := see inPmd pud (pudIndex addr)
  let inP4d (p4d : P4dTable) := see inPud p4d (p4dIndex l5 addr)
  see inP4d pgd (pgdIndex l5 addr)

/-- The machine at boot: the ranges of page frames `pfn_mapped`, sorted, each a start and an end, in the
direct mapping at `PAGE_OFFSET`, which maps nothing in the gaps. -/
structure Config where
  l5 : Bool
  PAGE_OFFSET : ℕ
  pfnMapped : List (ℕ × ℕ)
  pgd : PgdTable
  aligned : PAGE_OFFSET % PAGE_SIZE = 0
  canonical : 2 ^ 64 - 2 ^ (if l5 then 56 else 47) ≤ PAGE_OFFSET
  sorted : pfnMapped.Pairwise fun r r' => r.1 ≤ r'.1
  range : ∀ r ∈ pfnMapped, r.1 ≤ r.2
  direct : ∀ r ∈ pfnMapped, PAGE_OFFSET + r.2 <<< PAGE_SHIFT < 2 ^ 64
  folded : l5 = false → ∀ i, ∃ p4d, pgd i = .table p4d
  clear : ∀ pfn, InGap pfnMapped pfn → lookup l5 pgd (PAGE_OFFSET + pfn <<< PAGE_SHIFT) = none

/-- The macro `__va` of a page frame. -/
def Config.va (c : Config) (pfn : ℕ) : ℕ := c.PAGE_OFFSET + pfn <<< PAGE_SHIFT

/-! ### Vpages -/

/-- The objects `struct vpage`, `vpage_free_head`, `vpage_inuse_head` and the page tables. -/
structure State where
  nr : ℕ
  vaddr : ℕ → ℕ
  inuse : ℕ → Bool
  freeHead : List ℕ
  inuseHead : List ℕ
  pgd : PgdTable

/-- A new vpage, first in the free list. -/
def State.add (s : State) (addr : ℕ) : State :=
  { s with
    nr := s.nr + 1
    vaddr := Function.update s.vaddr s.nr addr
    inuse := Function.update s.inuse s.nr false
    freeHead := s.nr :: s.freeHead }

/-- The loop of `__vpage_init`; `kmem` tells the addresses whose vpage `kmem_cache_alloc` has memory for. -/
def vpageInitLoop (kmem : ℕ → Bool) (index stop : ℕ) (s : State) : ℤ × State :=
  if index < stop then
    if kmem index then vpageInitLoop kmem (index + PAGE_SIZE) stop (s.add index) else (-ENOMEM, s)
  else (0, s)
termination_by stop - index
decreasing_by
  have : PAGE_SIZE = 4096 := rfl
  omega

section

variable (c : Config) (kmem : ℕ → Bool)

/-- `__vpage_init`. -/
def vpageInit (startPfn endPfn : ℕ) (s : State) : ℤ × State :=
  let start := PAGE_ALIGN (c.va startPfn)
  let stop := PAGE_ALIGN_DOWN (c.va endPfn)
  if start > stop then (0, s) else vpageInitLoop kmem start stop s

/-- The loop of `vpage_alloc_init`, over two neighbours at a time. -/
def vpageAllocInitLoop : List (ℕ × ℕ) → State → State
  | r :: r' :: rest, s =>
    vpageAllocInitLoop (r' :: rest) (if r'.1 > r.2 then (vpageInit c kmem r.2 r'.1 s).2 else s)
  | _, s => s

def vpageAllocInit : State :=
  vpageAllocInitLoop c kmem c.pfnMapped ⟨0, fun _ => 0, fun _ => false, [], [], c.pgd⟩

end

/-! ### Mapping -/

/-- An entry of a table on the walk of `tmap_mapping`: without a table it gets a fresh one, if there is
memory for it, and the walk goes on in the table. -/
def descend {α : Type} (ok : Bool) (fresh : α) (f : α → Option α) (t : ℕ → Entry α) (i : ℕ) :
    Option (ℕ → Entry α) :=
  match t i with
  | .none => if ok then (f fresh).map fun t' => Function.update t i (.table t') else none
  | .bad => none
  | .table t' => (f t').map fun t' => Function.update t i (.table t')

section

variable (c : Config) (alloc : Level → Bool)

/-- `tmap_mapping`. -/
def tmapMapping (vaddr phys : ℕ) (prot : Prot) (pgd : PgdTable) : Option (ℤ × PgdTable) :=
  match pgd (pgdIndex c.l5 vaddr) with
  | .bad => some (-EINVAL, pgd)
  | _ => do
    let setPte (pte : PteTable) : Option PteTable :=
      some (Function.update pte (pteIndex vaddr) (some ⟨phys >>> PAGE_SHIFT, prot⟩))
    let inPmd (pmd : PmdTable) := descend (alloc .pte) (fun _ => none) setPte pmd (pmdIndex vaddr)
    let inPud (pud : PudTable) := descend (alloc .pmd) (fun _ => .none) inPmd pud (pudIndex vaddr)
    let inP4d (p4d : P4dTable) := descend (alloc .pud) (fun _ => .none) inPud p4d (p4dIndex c.l5 vaddr)
    let pgd ← descend (alloc .p4d) (fun _ => .none) inP4d pgd (pgdIndex c.l5 vaddr)
    some (0, pgd)

/-- `_tmap_prot`; `NULL` is `none`. -/
def tmapProt (phys : ℕ) (prot : Prot) (s : State) : Option (Option ℕ × State) :=
  match s.freeHead with
  | [] => some (none, s)
  | vpage :: _ => do
    let (_, pgd) ← tmapMapping c alloc (s.vaddr vpage) phys prot s.pgd
    some (some (s.vaddr vpage),
      { s with
        pgd := pgd
        inuse := Function.update s.inuse vpage true
        freeHead := s.freeHead.erase vpage
        inuseHead := vpage :: s.inuseHead })

def biscuitOSTmap (phys : ℕ) (s : State) : Option (Option ℕ × State) := tmapProt c alloc phys .kernel s

def biscuitOSTmapIo (phys : ℕ) (s : State) : Option (Option ℕ × State) :=
  tmapProt c alloc phys .kernelIo s

/-! ### Unmapping -/

/-- An entry of a table on the walk of `apply_to_page_range`: without a table it gets a fresh one, if
there is memory for it; a bad one is cleared before. -/
def fill {α : Type} (ok : Bool) (fresh : α) (f : α → α) (t : ℕ → Entry α) (i : ℕ) : ℕ → Entry α :=
  match t i with
  | .table t' => Function.update t i (.table (f t'))
  | _ => if ok then Function.update t i (.table (f fresh)) else Function.update t i .none

/-- `apply_to_page_range` on one page, with `tump_pte`. -/
def applyToPage (vaddr : ℕ) (pgd : PgdTable) : PgdTable :=
  let tumpPte (pte : PteTable) : PteTable := Function.update pte (pteIndex vaddr) none
  let inPmd (pmd : PmdTable) := fill (alloc .pte) (fun _ => none) tumpPte pmd (pmdIndex vaddr)
  let inPud (pud : PudTable) := fill (alloc .pmd) (fun _ => .none) inPmd pud (pudIndex vaddr)
  let inP4d (p4d : P4dTable) := fill (alloc .pud) (fun _ => .none) inPud p4d (p4dIndex c.l5 vaddr)
  fill (alloc .p4d) (fun _ => .none) inP4d pgd (pgdIndex c.l5 vaddr)

/-- `_tumap`. -/
def tumapVpage (vpage : ℕ) (s : State) : State := { s with pgd := applyToPage c alloc (s.vaddr vpage) s.pgd }

/-- One round of the loop of `BiscuitOS_tumap`. -/
def tumapRound (addr : ℕ) (s : State) (vpage : ℕ) : State :=
  if addr = s.vaddr vpage then
    let s := tumapVpage c alloc vpage s
    { s with inuseHead := s.inuseHead.erase vpage, freeHead := s.freeHead ++ [vpage] }
  else s

def biscuitOSTumap (addr : ℕ) (s : State) : State := s.inuseHead.foldl (tumapRound c alloc addr) s

end

/-! ### Calls -/

inductive Call
  | tmap (phys : ℕ)
  | tmapIo (phys : ℕ)
  | tumap (addr : ℕ)

def step (c : Config) (alloc : Level → Bool) (s : State) : Call → Option (Option ℕ × State)
  | .tmap phys => biscuitOSTmap c alloc phys s
  | .tmapIo phys => biscuitOSTmapIo c alloc phys s
  | .tumap addr => some (none, biscuitOSTumap c alloc addr s)

end HardStack.Tmap.Model
