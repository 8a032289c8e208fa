import HardStack.Buddy.Model

/-! # The buddy allocator with a HighMem zone of `Memory-Allocator/Buddy/HighMem_usespace`

`mm/buddy.c` and `include/linux/buddy.h`. The page structs and the arithmetic are those of
`Buddy/Userspace`; there are two zones, each with its own free lists, and `page_zone` tells a page's
zone from its pfn. `high_pfn` is set by `memory_init` before its first use, so that it is part of the
configuration. -/

namespace HardStack.Buddy.HighMemModel

open HardStack.Lib.Dyadic
open HardStack.Buddy.Model (Page PageBuddy setPageBuddy clearPageBuddy PAGE_SIZE PAGE_TYPE_BASE PFN_UP
  PFN_DOWN PHYS_PFN MAX_ORDER pageblockOrder findBuddyPfn shrinkOrder ffs)

inductive Zone
  | normal
  | highmem
  deriving DecidableEq

/-- The configuration: page-aligned, and free of 32-bit overflow. -/
structure Config where
  PHYS_OFFSET : ℕ
  MEMORY_SIZE : ℕ
  HIGHMEM_SIZE : ℕ
  offset_pos : 0 < PHYS_OFFSET
  offset_aligned : PAGE_SIZE ∣ PHYS_OFFSET
  size_aligned : PAGE_SIZE ∣ MEMORY_SIZE
  highmem_aligned : PAGE_SIZE ∣ HIGHMEM_SIZE
  no_overflow : PHYS_OFFSET + MEMORY_SIZE + HIGHMEM_SIZE < 2 ^ 32

namespace Config

variable (c : Config)

def lowPfn : ℕ := PFN_UP c.PHYS_OFFSET
def lowMaxPfn : ℕ := PFN_DOWN (c.PHYS_OFFSET + c.MEMORY_SIZE)
def highPfn : ℕ := c.lowMaxPfn
def endPfn : ℕ := PFN_DOWN (c.PHYS_OFFSET + c.MEMORY_SIZE + c.HIGHMEM_SIZE)
def PFN_OFFSET : ℕ := PHYS_PFN c.PHYS_OFFSET
def nrPages : ℕ := (c.MEMORY_SIZE + c.HIGHMEM_SIZE) / PAGE_SIZE

/-- The page struct of `pfn` is one of `mem_map[0 .. nr_pages - 1]`. -/
def InMemMap (pfn : ℕ) : Prop := c.PFN_OFFSET ≤ pfn ∧ pfn < c.PFN_OFFSET + c.nrPages

instance (pfn : ℕ) : Decidable (c.InMemMap pfn) := by unfold InMemMap; infer_instance

def pageZone (pfn : ℕ) : Zone := if pfn ≥ c.highPfn then .highmem else .normal

end Config

structure State where
  page : ℕ → Page
  freeList : Zone → ℕ → List ℕ
  nrFree : Zone → ℕ → ℕ

namespace State

def setPageOrder (s : State) (pfn order : ℕ) : State :=
  let page := setPageBuddy { s.page pfn with priv := order }
  { s with page := Function.update s.page pfn page }

def rmvPageOrder (s : State) (pfn : ℕ) : State :=
  let page := { clearPageBuddy (s.page pfn) with priv := 0 }
  { s with page := Function.update s.page pfn page }

/-- `list_del(&page->lru)`: the page leaves the list it is linked in. -/
def listDel (s : State) (pfn : ℕ) : State :=
  { s with freeList := fun z o => (s.freeList z o).erase pfn }

def setList (s : State) (z : Zone) (order : ℕ) (list : List ℕ) : State :=
  { s with freeList := Function.update s.freeList z (Function.update (s.freeList z) order list) }

def listAdd (s : State) (z : Zone) (pfn order : ℕ) : State :=
  s.setList z order (pfn :: s.freeList z order)

def listAddTail (s : State) (z : Zone) (pfn order : ℕ) : State :=
  s.setList z order (s.freeList z order ++ [pfn])

def setNrFree (s : State) (z : Zone) (order n : ℕ) : State :=
  { s with nrFree := Function.update s.nrFree z (Function.update (s.nrFree z) order n) }

def incNrFree (s : State) (z : Zone) (order : ℕ) : State :=
  s.setNrFree z order (s.nrFree z order + 1)

def decNrFree (s : State) (z : Zone) (order : ℕ) : State :=
  s.setNrFree z order (s.nrFree z order - 1)

end State

section

variable (c : Config)

/-! ### Freeing -/

/-- `page_is_buddy`, where falling off the end of the function gives `0`. -/
def pageIsBuddy (s : State) (page buddy order : ℕ) : Bool :=
  PageBuddy (s.page buddy) && (s.page buddy).priv == order && c.pageZone page == c.pageZone buddy

/-- The loop at `continue_merging`, at most `n` more rounds. -/
def continueMerging (zone : Zone) : ℕ → State → ℕ → ℕ → ℕ → State × ℕ × ℕ × ℕ
  | 0, s, pfn, order, buddyPfn => (s, pfn, order, buddyPfn)
  | n + 1, s, pfn, order, _ =>
    let buddyPfn := findBuddyPfn pfn order
    if pageIsBuddy c s pfn buddyPfn order then
      let s := ((s.listDel buddyPfn).decNrFree zone order).rmvPageOrder buddyPfn
      let combinedPfn := buddyPfn &&& pfn
      continueMerging zone n s combinedPfn (order + 1) buddyPfn
    else (s, pfn, order, buddyPfn)

/-- The code from `done_merging` on. -/
def doneMerging (zone : Zone) (s : State) (pfn order buddyPfn : ℕ) : State :=
  let s := s.setPageOrder pfn order
  let s :=
    if order = 0 then s.listAdd zone pfn order
    else if order < MAX_ORDER - 2 then
      let combinedPfn := buddyPfn &&& pfn
      let higherBuddy := findBuddyPfn combinedPfn (order + 1)
      if pageIsBuddy c s combinedPfn higherBuddy (order + 1) then s.listAddTail zone pfn order
      else s.listAdd zone pfn order
    else s.listAdd zone pfn order
  s.incNrFree zone order

/-- `__free_one_page`. -/
def freeOnePage (zone : Zone) (s : State) (pfn order : ℕ) : State :=
  let maxOrder := min MAX_ORDER (pageblockOrder + 1)
  let (s, pfn, order, buddyPfn) := continueMerging c zone (maxOrder - 1 - order) s pfn order 0
  doneMerging c zone s pfn order buddyPfn

/-- `__free_pages`, through `__free_pages_ok`. -/
def freePages (s : State) (pfn order : ℕ) : State := freeOnePage c (c.pageZone pfn) s pfn order

end

/-! ### Allocating -/

/-- The loop of `expand`, `n` rounds: `high` is `low + n` and `size` is `1 << high`. -/
def expandLoop (zone : Zone) : ℕ → State → (page low size : ℕ) → State
  | 0, s, _, _, _ => s
  | n + 1, s, page, low, size =>
    let high := low + n
    let size := size >>> 1
    let s := ((s.listAdd zone (page + size) high).incNrFree zone high).setPageOrder (page + size) high
    expandLoop zone n s page low size

def expand (zone : Zone) (s : State) (page low high : ℕ) : State :=
  expandLoop zone (high - low) s page low (1 <<< high)

/-- The loop of `__rmqueue_smallest`, with `n` orders left from `currentOrder` on. -/
def rmqueueLoop (zone : Zone) (order : ℕ) : ℕ → State → (currentOrder : ℕ) → State × Option ℕ
  | 0, s, _ => (s, none)
  | n + 1, s, currentOrder =>
    match s.freeList zone currentOrder with
    | [] => rmqueueLoop zone order n s (currentOrder + 1)
    | page :: _ =>
      let s := ((s.listDel page).rmvPageOrder page).decNrFree zone currentOrder
      (expand zone s page order currentOrder, some page)

def rmqueueSmallest (zone : Zone) (s : State) (order : ℕ) : State × Option ℕ :=
  rmqueueLoop zone order (MAX_ORDER - order) s order

/-- `__alloc_pages`; `highmem` tells whether `__GFP_HIGHMEM` is set. -/
def allocPages (s : State) (highmem : Bool) (order : ℕ) : State × Option ℕ :=
  rmqueueSmallest (if highmem then .highmem else .normal) s order

/-! ### Initialisation -/

/-- The loop of `memory_init` that frees the range, with `n` rounds at most. -/
def freeRange (c : Config) : ℕ → State → (startPfn : ℕ) → State
  | 0, s, _ => s
  | n + 1, s, startPfn =>
    if startPfn < c.endPfn then
      let order := shrinkOrder startPfn c.endPfn (min (MAX_ORDER - 1) (ffs startPfn))
      freeRange c n (freePages c s startPfn order) (startPfn + (1 <<< order))
    else s

/-- The first two loops of `memory_init`. -/
def initPages (c : Config) (raw : ℕ → Page) : State where
  page := fun pfn => if c.InMemMap pfn then
      { raw pfn with pageType := (raw pfn).pageType ||| PAGE_TYPE_BASE } else raw pfn
  freeList := fun _ _ => []
  nrFree := fun _ _ => 0

/-- `memory_init`. -/
def memoryInit (c : Config) (raw : ℕ → Page) : State :=
  freeRange c (c.endPfn - c.lowPfn) (initPages c raw) c.lowPfn

/-- The buffer is zero-filled and no page struct outside of `mem_map` is marked `PageBuddy`. -/
structure Raw (c : Config) (raw : ℕ → Page) : Prop where
  zero : ∀ pfn, c.InMemMap pfn → raw pfn = ⟨0, 0⟩
  outside : ∀ pfn, ¬ c.InMemMap pfn → PageBuddy (raw pfn) = false

/-! ### Runs -/

/-- A block a caller holds, and whether it was allocated with `__GFP_HIGHMEM`. -/
structure Held where
  block : Block
  highmem : Bool
  deriving DecidableEq

structure System where
  st : State
  held : List Held

/-- One call: `__alloc_pages`, or `__free_pages` of a held block with its own order. -/
inductive Step (c : Config) : System → System → Prop
  | alloc {s s' : State} {held : List Held} {highmem : Bool} {order page : ℕ} (ho : order < MAX_ORDER)
      (h : allocPages s highmem order = (s', some page)) :
      Step c ⟨s, held⟩ ⟨s', ⟨⟨page, order⟩, highmem⟩ :: held⟩
  | allocNull {s s' : State} {held : List Held} {highmem : Bool} {order : ℕ} (ho : order < MAX_ORDER)
      (h : allocPages s highmem order = (s', none)) : Step c ⟨s, held⟩ ⟨s', held⟩
  | free {s : State} {held : List Held} {b : Held} (hb : b ∈ held) :
      Step c ⟨s, held⟩ ⟨freePages c s b.block.head b.block.order, held.erase b⟩

/-- The states that runs from `memory_init` reach. -/
def Reachable (c : Config) (raw : ℕ → Page) (t : System) : Prop :=
  Relation.ReflTransGen (Step c) ⟨memoryInit c raw, []⟩ t

end HardStack.Buddy.HighMemModel
