import Mathlib
import HardStack.Lib.LinkedList
import HardStack.Lib.Run

/-! # The SLUB allocator of `Memory-Allocator/slab/slub_userspace`

`mm/slub.c` for one `kmem_cache`. Addresses are numbers and `NULL` is `0`; a slab page is named by its
`page_address`. The page allocator is not part of the model: a call is given the two answers that
`allocate_slab` may ask it for. There is one cpu, so that the `cmpxchg`s of the source always succeed,
and one node. -/

namespace HardStack.Slub.Model

def PAGE_SIZE : ℕ := 1 <<< 12
def ZERO_SIZE_PTR : ℕ := 16

/-- `order_objects`. -/
def orderObjects (order size : ℕ) : ℕ := (PAGE_SIZE <<< order) / size

/-- What `kmem_cache_open` has set up: the size of a slot, the offset of the free pointer in it, and
the orders of `s->oo` and `s->min`, at which at least one object fits. -/
structure Cache where
  size : ℕ
  offset : ℕ
  order : ℕ
  minOrder : ℕ
  minPartial : ℕ
  offset_lt : offset < size
  oo_pos : 0 < orderObjects order size
  min_pos : 0 < orderObjects minOrder size

/-- The fields of `struct page` that a slab uses. -/
structure Page where
  order : ℕ
  freelist : ℕ
  inuse : ℕ
  objects : ℕ
  frozen : Bool

structure KmemCacheCpu where
  freelist : ℕ
  page : ℕ

structure KmemCacheNode where
  nrPartial : ℕ
  partialList : List ℕ

/-- The memory, the pages and the structures of the cache; `slabs` are the pages it has been given. -/
structure State where
  mem : ℕ → ℕ
  page : ℕ → Page
  slabs : List ℕ
  cpu : KmemCacheCpu
  node : KmemCacheNode

/-- The answers of `__alloc_pages` for `s->oo` and then for `s->min`. -/
structure Grant where
  first : Option ℕ
  second : Option ℕ

section

variable (c : Cache)

def getFreepointer (s : State) (object : ℕ) : ℕ := s.mem (object + c.offset)

def setFreepointer (s : State) (object fp : ℕ) : State :=
  { s with mem := Function.update s.mem (object + c.offset) fp }

def State.setPage (s : State) (page : ℕ) (p : Page) : State :=
  { s with page := Function.update s.page page p }

/-- The loop of `allocate_slab` that chains the objects, with `n` more objects to come. -/
def linkObjects : ℕ → (p : ℕ) → State → State
  | 0, p, s => setFreepointer c s p 0
  | n + 1, p, s => linkObjects n (p + c.size) (setFreepointer c s p (p + c.size))

/-- `allocate_slab` after it has got a page of the given order. -/
def setupSlab (s : State) (page order : ℕ) : State :=
  let objects := orderObjects order c.size
  let s := { s with slabs := page :: s.slabs }
  let s := linkObjects c (objects - 1) page s
  s.setPage page ⟨order, page, objects, objects, true⟩

/-- `allocate_slab`, and the page. -/
def allocateSlab (s : State) (g : Grant) : State × ℕ :=
  match g.first with
  | some page => (setupSlab c s page c.order, page)
  | none =>
    match g.second with
    | some page => (setupSlab c s page c.minOrder, page)
    | none => (s, 0)

def addPartial (s : State) (page : ℕ) (tail : Bool) : State :=
  { s with node := ⟨s.node.nrPartial + 1,
    if tail then s.node.partialList ++ [page] else page :: s.node.partialList⟩ }

def removePartial (s : State) (page : ℕ) : State :=
  { s with node := ⟨s.node.nrPartial - 1, s.node.partialList.erase page⟩ }

/-- `early_kmem_cache_node_alloc`, and the object it takes; there is none without a page. -/
def earlyKmemCacheNodeAlloc (s : State) (g : Grant) : Option (State × ℕ) :=
  let (s, page) := allocateSlab c s g
  if page = 0 then none
  else
    let n := (s.page page).freelist
    let s := s.setPage page { s.page page with
      freelist := getFreepointer c s n, inuse := 1, frozen := false }
    let s := { s with node := ⟨0, []⟩ }
    some (addPartial s page false, n)

/-- `acquire_slab`, with its `freelist`. -/
def acquireSlab (s : State) (page : ℕ) (mode : Bool) : State × ℕ :=
  let freelist := (s.page page).freelist
  let new := if mode then { s.page page with inuse := (s.page page).objects, freelist := 0 }
    else s.page page
  (removePartial (s.setPage page { new with frozen := true }) page, freelist)

/-- `get_partial_node`: without cpu partial lists the loop ends after one page. -/
def getPartialNode (s : State) : State × ℕ :=
  if s.node.nrPartial = 0 then (s, 0)
  else
    match s.node.partialList with
    | [] => (s, 0)
    | page :: _ =>
      let (s, t) := acquireSlab s page true
      if t = 0 then (s, 0) else ({ s with cpu := { s.cpu with page := page } }, t)

/-- Stage one of `deactivate_slab`: all objects of the cpu freelist but the last go back to the page.
The last one is the result. -/
def drainFreelist (page : ℕ) : ℕ → (freelist : ℕ) → State → State × ℕ
  | 0, freelist, s => (s, freelist)
  | n + 1, freelist, s =>
    if freelist = 0 then (s, 0)
    else
      let nextfree := getFreepointer c s freelist
      if nextfree = 0 then (s, freelist)
      else
        let prior := (s.page page).freelist
        let s := setFreepointer c s freelist prior
        let s := s.setPage page { s.page page with
          freelist := freelist, inuse := (s.page page).inuse - 1 }
        drainFreelist page n nextfree s

/-- The target state of `deactivate_slab`: the page is put on the partial list unless it is full or to
be discarded. `discard_slab` leaves the page as it is. -/
def relist (s : State) (page : ℕ) (new : Page) (tail : Bool) : State :=
  let s := if new.inuse = 0 ∧ s.node.nrPartial ≥ c.minPartial then s
    else if new.freelist ≠ 0 then addPartial s page tail
    else s
  s.setPage page new

/-- Stage two of `deactivate_slab`: the last object goes back and the page is unfrozen. -/
def unfreezeSlab (s : State) (page freelist : ℕ) (tail : Bool) : State :=
  let old := s.page page
  if freelist ≠ 0 then
    relist c (setFreepointer c s freelist old.freelist) page
      { old with freelist := freelist, inuse := old.inuse - 1, frozen := false } tail
  else relist c s page { old with frozen := false } tail

/-- `deactivate_slab`. -/
def deactivateSlab (s : State) (page freelist : ℕ) : State :=
  let tail := (s.page page).freelist ≠ 0
  let (s, freelist) := drainFreelist c page (s.page page).objects freelist s
  let s := unfreezeSlab c s page freelist tail
  { s with cpu := ⟨0, 0⟩ }

def flushSlab (s : State) : State := deactivateSlab c s s.cpu.page s.cpu.freelist

/-- `__flush_cpu_slab`. -/
def flushCpuSlab (s : State) : State := if s.cpu.page ≠ 0 then flushSlab c s else s

/-- `new_slab_objects`, and whether it has called `new_slab`. -/
def newSlabObjects (s : State) (g : Grant) : State × ℕ × Bool :=
  let (s, freelist) := getPartialNode s
  if freelist ≠ 0 then (s, freelist, false)
  else
    let (s, page) := allocateSlab c s g
    if page ≠ 0 then
      let s := flushCpuSlab c s
      let freelist := (s.page page).freelist
      let s := s.setPage page { s.page page with freelist := 0 }
      ({ s with cpu := { s.cpu with page := page } }, freelist, true)
    else (s, 0, true)

/-- `get_freelist`. -/
def getFreelist (s : State) (page : ℕ) : ℕ := (s.page page).freelist

/-- The label `load_freelist` of `___slab_alloc`. -/
def loadFreelist (s : State) (freelist : ℕ) : State × ℕ :=
  ({ s with cpu := { s.cpu with freelist := getFreepointer c s freelist } }, freelist)

/-- The label `new_slab` of `___slab_alloc`. -/
def newSlabLabel (s : State) (g : Grant) : State × ℕ × Bool :=
  let (s, freelist, asked) := newSlabObjects c s g
  if freelist = 0 then (s, 0, asked)
  else
    let (s, object) := loadFreelist c s freelist
    (s, object, asked)

/-- `___slab_alloc`. -/
def slabAllocSlow (s : State) (g : Grant) : State × ℕ × Bool :=
  if s.cpu.page = 0 then newSlabLabel c s g
  else if s.cpu.freelist ≠ 0 then
    let (s, object) := loadFreelist c s s.cpu.freelist
    (s, object, false)
  else
    let freelist := getFreelist s s.cpu.page
    if freelist = 0 then newSlabLabel c { s with cpu := { s.cpu with page := 0 } } g
    else
      let (s, object) := loadFreelist c s freelist
      (s, object, false)

/-- `kmem_cache_alloc`, through `slab_alloc_node`: the object, `NULL` if there is none, and whether
the page allocator was asked. What `__GFP_ZERO` writes into the object is left to the caller. -/
def kmemCacheAlloc (s : State) (g : Grant) : State × ℕ × Bool :=
  if s.cpu.freelist = 0 then slabAllocSlow c s g
  else
    let object := s.cpu.freelist
    ({ s with cpu := { s.cpu with freelist := getFreepointer c s object } }, object, false)

/-- `__slab_free` of one object. The node `n` is never looked up, so that nothing is done to its
partial list. -/
def slabFree (s : State) (page object : ℕ) : State :=
  let prior := (s.page page).freelist
  let s := setFreepointer c s object prior
  s.setPage page { s.page page with freelist := object, inuse := (s.page page).inuse - 1 }

/-- `do_slab_free` of one object. -/
def doSlabFree (s : State) (page object : ℕ) : State :=
  if page = s.cpu.page then
    let s := setFreepointer c s object s.cpu.freelist
    { s with cpu := { s.cpu with freelist := object } }
  else slabFree c s page object

/-- The addresses of a slab page. -/
def State.InPage (s : State) (page x : ℕ) : Prop :=
  page ≤ x ∧ x < page + PAGE_SIZE <<< (s.page page).order

instance (s : State) (page x : ℕ) : Decidable (s.InPage page x) := inferInstanceAs (Decidable (_ ∧ _))

/-- `virt_to_head_page`, for the pages of the cache. -/
def virtToHeadPage (s : State) (x : ℕ) : Option ℕ := s.slabs.find? fun page => s.InPage page x

/-- `kfree` of an object of the cache. -/
def kfree (s : State) (x : ℕ) : State :=
  if x ≤ ZERO_SIZE_PTR then s
  else
    match virtToHeadPage s x with
    | none => s
    | some page => doSlabFree c s page x

/-! ### Runs -/

/-- What the page allocator promises: a block that meets no page of the cache. -/
def FreshBlock (s : State) (page order : ℕ) : Prop :=
  ZERO_SIZE_PTR < page ∧ ∀ q ∈ s.slabs, q + PAGE_SIZE <<< (s.page q).order ≤ page ∨
    page + PAGE_SIZE <<< order ≤ q

def Grant.Valid (s : State) (g : Grant) : Prop :=
  (∀ page, g.first = some page → FreshBlock s page c.order) ∧
    ∀ page, g.first = none → g.second = some page → FreshBlock s page c.minOrder

/-- The cache and the objects that its callers hold. -/
structure System where
  st : State
  held : List ℕ

/-- A cache that has no slab yet, with the zeroed `cpu_slab`; `mem` and `page` are arbitrary. -/
def fresh (mem : ℕ → ℕ) (page : ℕ → Page) : State := ⟨mem, page, [], ⟨0, 0⟩, ⟨0, []⟩⟩

/-- An initialised cache: `kmem_cache_node` has taken its own node from its first slab. -/
inductive Start : System → Prop
  | fresh (mem : ℕ → ℕ) (page : ℕ → Page) : Start ⟨fresh mem page, []⟩
  | early {mem : ℕ → ℕ} {page : ℕ → Page} {g : Grant} {s : State} {n : ℕ}
      (hg : g.Valid c (Model.fresh mem page))
      (h : earlyKmemCacheNodeAlloc c (Model.fresh mem page) g = some (s, n)) : Start ⟨s, [n]⟩

/-- A call of `kmem_cache_alloc` or `kfree`, a write of a caller into an object, or the flush of the
cpu slab when a boot cache is copied. -/
inductive Act
  | alloc (g : Grant)
  | free (x : ℕ)
  | write (x v : ℕ)
  | flush

/-- Only an object that is held is freed or written. -/
def Act.Valid (t : System) : Act → Prop
  | .alloc g => g.Valid c t.st
  | .free x => x ∈ t.held
  | .write x _ => x ∈ t.held
  | .flush => True

def perform (t : System) : Act → System
  | .alloc g =>
    let r := kmemCacheAlloc c t.st g
    ⟨r.1, if r.2.1 = 0 then t.held else r.2.1 :: t.held⟩
  | .free x => ⟨kfree c t.st x, t.held.erase x⟩
  | .write x v => ⟨setFreepointer c t.st x v, t.held⟩
  | .flush => ⟨flushCpuSlab c t.st, t.held⟩

/-- One step, under a condition `P` on the state before it. -/
def Step (P : State → Act → Prop) (t t' : System) : Prop :=
  ∃ act : Act, act.Valid c t ∧ P t.st act ∧ t' = perform c t act

end

end HardStack.Slub.Model
