import HardStack.Lib.Dyadic
import HardStack.Lib.Run

/-! # The buddy allocator of `Memory-Allocator/Buddy/Userspace`

`mm/buddy.c` and `include/linux/buddy.h`. A `struct page *` is the page frame number it stands for
(`page_to_pfn` and `pfn_to_page` are inverse, and `page + (buddy_pfn - pfn)` is the page of
`buddy_pfn`), so `mem_map` is a function of the pfn. The list of one `free_area` is a list of pfns,
first entry first. -/

namespace HardStack.Buddy.Model

open HardStack.Lib.Dyadic

/-! ### `struct page` -/

def PAGE_SHIFT : ℕ := 12
def PAGE_SIZE : ℕ := 1 <<< PAGE_SHIFT
def MAX_ORDER : ℕ := 11
def pageblockOrder : ℕ := 10

def PFN_UP (x : ℕ) : ℕ := (x + PAGE_SIZE - 1) >>> PAGE_SHIFT
def PFN_DOWN (x : ℕ) : ℕ := x >>> PAGE_SHIFT
def PHYS_PFN (x : ℕ) : ℕ := x >>> PAGE_SHIFT

def PAGE_TYPE_BASE : BitVec 32 := 0xf0000000
def PG_buddy : BitVec 32 := 0x00000080

/-- `struct page` without the list node `lru`, which the lists below stand for. -/
structure Page where
  pageType : BitVec 32
  priv : ℕ
  deriving DecidableEq

def PageBuddy (page : Page) : Bool :=
  (page.pageType &&& (PAGE_TYPE_BASE ||| PG_buddy)) == PAGE_TYPE_BASE

def setPageBuddy (page : Page) : Page := { page with pageType := page.pageType &&& ~~~PG_buddy }
def clearPageBuddy (page : Page) : Page := { page with pageType := page.pageType ||| PG_buddy }

/-- The zone and the page table: `mem_map`, and for each order the list and the counter of its
`free_area`. -/
structure State where
  page : ℕ → Page
  freeList : ℕ → List ℕ
  nrFree : ℕ → ℕ

namespace State

def setPageOrder (s : State) (pfn order : ℕ) : State :=
  let page := setPageBuddy { s.page pfn with priv := order }
  { s with page := Function.update s.page pfn page }

def rmvPageOrder (s : State) (pfn : ℕ) : State :=
  let page := { clearPageBuddy (s.page pfn) with priv := 0 }
  { s with page := Function.update s.page pfn page }

/-- `list_del(&page->lru)`: the page leaves the list it is linked in. -/
def listDel (s : State) (pfn : ℕ) : State :=
  { s with freeList := fun o => (s.freeList o).erase pfn }

def listAdd (s : State) (pfn order : ℕ) : State :=
  { s with freeList := Function.update s.freeList order (pfn :: s.freeList order) }

def listAddTail (s : State) (pfn order : ℕ) : State :=
  { s with freeList := Function.update s.freeList order (s.freeList order ++ [pfn]) }

def incNrFree (s : State) (order : ℕ) : State :=
  { s with nrFree := Function.update s.nrFree order (s.nrFree order + 1) }

def decNrFree (s : State) (order : ℕ) : State :=
  { s with nrFree := Function.update s.nrFree order (s.nrFree order - 1) }

end State

/-! ### Freeing -/

def findBuddyPfn (pagePfn order : ℕ) : ℕ := pagePfn ^^^ (1 <<< order)

/-- `page_is_buddy`, where falling off the end of the function gives `0`. -/
def pageIsBuddy (s : State) (buddy order : ℕ) : Bool :=
  PageBuddy (s.page buddy) && (s.page buddy).priv == order

/-- The loop at `continue_merging`, at most `n` more rounds: the state, `pfn`, `order` and the
last `buddy_pfn`, when control reaches `done_merging`. -/
def continueMerging : ℕ → State → ℕ → ℕ → ℕ → State × ℕ × ℕ × ℕ
  | 0, s, pfn, order, buddyPfn => (s, pfn, order, buddyPfn)
  | n + 1, s, pfn, order, _ =>
    let buddyPfn := findBuddyPfn pfn order
    if pageIsBuddy s buddyPfn order then
      let s := ((s.listDel buddyPfn).decNrFree order).rmvPageOrder buddyPfn
      let combinedPfn := buddyPfn &&& pfn
      continueMerging n s combinedPfn (order + 1) buddyPfn
    else (s, pfn, order, buddyPfn)

/-- The code from `done_merging` on. -/
def doneMerging (s : State) (pfn order buddyPfn : ℕ) : State :=
  let s := s.setPageOrder pfn order
  let s :=
    if order = 0 then s.listAdd pfn order
    else if order < MAX_ORDER - 2 then
      let combinedPfn := buddyPfn &&& pfn
      let higherBuddy := findBuddyPfn combinedPfn (order + 1)
      if pageIsBuddy s higherBuddy (order + 1) then s.listAddTail pfn order
      else s.listAdd pfn order
    else s.listAdd pfn order
  s.incNrFree order

/-- `__free_one_page`. `buddy_pfn` is not initialised in the source; it is read only after a round
of the loop has set it. -/
def freeOnePage (s : State) (pfn order : ℕ) : State :=
  let maxOrder := min MAX_ORDER (pageblockOrder + 1)
  let (s, pfn, order, buddyPfn) := continueMerging (maxOrder - 1 - order) s pfn order 0
  doneMerging s pfn order buddyPfn

/-- `__free_pages`, which hands the page down to `__free_one_page`. -/
def freePages (s : State) (pfn order : ℕ) : State := freeOnePage s pfn order

/-! ### Allocating -/

/-- The loop of `expand`, `n` rounds: `high` is `low + n` and `size` is `1 << high`. -/
def expandLoop : ℕ → State → (page low size : ℕ) → State
  | 0, s, _, _, _ => s
  | n + 1, s, page, low, size =>
    let high := low + n
    let size := size >>> 1
    let s := ((s.listAdd (page + size) high).incNrFree high).setPageOrder (page + size) high
    expandLoop n s page low size

def expand (s : State) (page low high : ℕ) : State :=
  expandLoop (high - low) s page low (1 <<< high)

/-- The loop of `__rmqueue_smallest`, with `n` orders left from `currentOrder` on. -/
def rmqueueLoop (order : ℕ) : ℕ → State → (currentOrder : ℕ) → State × Option ℕ
  | 0, s, _ => (s, none)
  | n + 1, s, currentOrder =>
    match s.freeList currentOrder with
    | [] => rmqueueLoop order n s (currentOrder + 1)
    | page :: _ =>
      let s := ((s.listDel page).rmvPageOrder page).decNrFree currentOrder
      (expand s page order currentOrder, some page)

def rmqueueSmallest (s : State) (order : ℕ) : State × Option ℕ :=
  rmqueueLoop order (MAX_ORDER - order) s order

/-- `__alloc_pages`, through `get_page_from_freelist` and `rmqueue`. -/
def allocPages (s : State) (order : ℕ) : State × Option ℕ := rmqueueSmallest s order

/-! ### Initialisation -/

/-- The configuration: page-aligned, and free of 32-bit overflow. -/
structure Config where
  PHYS_OFFSET : ℕ
  MEMORY_SIZE : ℕ
  offset_pos : 0 < PHYS_OFFSET
  offset_aligned : PAGE_SIZE ∣ PHYS_OFFSET
  size_aligned : PAGE_SIZE ∣ MEMORY_SIZE
  no_overflow : PHYS_OFFSET + MEMORY_SIZE < 2 ^ 32

namespace Config

variable (c : Config)

def startPfn : ℕ := PFN_UP c.PHYS_OFFSET
def endPfn : ℕ := PFN_DOWN (c.PHYS_OFFSET + c.MEMORY_SIZE)
def PFN_OFFSET : ℕ := PHYS_PFN c.PHYS_OFFSET
def nrPages : ℕ := c.MEMORY_SIZE / PAGE_SIZE

/-- The page struct of `pfn` is one of `mem_map[0 .. nr_pages - 1]`. -/
def InMemMap (pfn : ℕ) : Prop := c.PFN_OFFSET ≤ pfn ∧ pfn < c.PFN_OFFSET + c.nrPages

instance (pfn : ℕ) : Decidable (c.InMemMap pfn) := by unfold InMemMap; infer_instance

end Config

/-- `__builtin_ctzl`: the least set bit of a word. -/
def ffs (word : ℕ) : ℕ := ((List.range 32).find? fun i => word.testBit i).getD 32

/-- `while (start_pfn + (1UL << order) > end_pfn) order--;` -/
def shrinkOrder (startPfn endPfn : ℕ) : ℕ → ℕ
  | 0 => 0
  | order + 1 =>
    if startPfn + (1 <<< (order + 1)) > endPfn then shrinkOrder startPfn endPfn order
    else order + 1

/-- The loop of `memory_init` that frees the range, with `n` rounds at most. -/
def freeRange (endPfn : ℕ) : ℕ → State → (startPfn : ℕ) → State
  | 0, s, _ => s
  | n + 1, s, startPfn =>
    if startPfn < endPfn then
      let order := shrinkOrder startPfn endPfn (min (MAX_ORDER - 1) (ffs startPfn))
      freeRange endPfn n (freePages s startPfn order) (startPfn + (1 <<< order))
    else s

/-- The first two loops of `memory_init`: `raw` is what the buffer and the memory around it hold. -/
def initPages (c : Config) (raw : ℕ → Page) : State where
  page := fun pfn => if c.InMemMap pfn then
      { raw pfn with pageType := (raw pfn).pageType ||| PAGE_TYPE_BASE } else raw pfn
  freeList := fun _ => []
  nrFree := fun _ => 0

/-- `memory_init`. Every round of the last loop frees at least one page, so the number of pages
bounds its rounds. -/
def memoryInit (c : Config) (raw : ℕ → Page) : State :=
  freeRange c.endPfn (c.endPfn - c.startPfn) (initPages c raw) c.startPfn

/-- The buffer is zero-filled and no page struct outside of `mem_map` is marked `PageBuddy`. -/
structure Raw (c : Config) (raw : ℕ → Page) : Prop where
  zero : ∀ pfn, c.InMemMap pfn → raw pfn = ⟨0, 0⟩
  outside : ∀ pfn, ¬ c.InMemMap pfn → PageBuddy (raw pfn) = false

/-! ### Runs -/

/-- The allocator together with the blocks its callers hold. -/
structure System where
  st : State
  held : List Block

/-- One call: `__alloc_pages`, or `__free_pages` of a held block with its own order. -/
inductive Step : System → System → Prop
  | alloc {s s' : State} {held : List Block} {order page : ℕ} (ho : order < MAX_ORDER)
      (h : allocPages s order = (s', some page)) : Step ⟨s, held⟩ ⟨s', ⟨page, order⟩ :: held⟩
  | allocNull {s s' : State} {held : List Block} {order : ℕ} (ho : order < MAX_ORDER)
      (h : allocPages s order = (s', none)) : Step ⟨s, held⟩ ⟨s', held⟩
  | free {s : State} {held : List Block} {b : Block} (hb : b ∈ held) :
      Step ⟨s, held⟩ ⟨freePages s b.head b.order, held.erase b⟩

/-- The states that runs from `memory_init` reach. -/
def Reachable (c : Config) (raw : ℕ → Page) (t : System) : Prop :=
  Relation.ReflTransGen Step ⟨memoryInit c raw, []⟩ t

end HardStack.Buddy.Model
