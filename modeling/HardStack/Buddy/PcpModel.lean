import HardStack.Buddy.Model

/-! # The buddy allocator with per-cpu pages of `Memory-Allocator/Buddy/PCP_userspace`

`mm/buddy.c`. The buddy part is the code of `Buddy/Userspace`; pages of order `0` go through the list
of `zone->pcp`. The pcp list is a list of pfns, first entry first; `zone->pcp` is `none` until
`pageset_init`, and `none` as a result means that the code went through that null pointer. The fields
of `struct per_cpu_pages` are `int`. -/

namespace HardStack.Buddy.PcpModel

open HardStack.Lib.Dyadic HardStack.Buddy.Model

/-- Conversion to `int`. -/
def toInt (x : ℕ) : ℤ := Int.bmod x (2 ^ 32)

/-- Conversion of an `int` to `unsigned long`. -/
def toUlong (x : ℤ) : ℕ := (x % 2 ^ 32).toNat

structure PerCpuPages where
  count : ℤ
  high : ℤ
  batch : ℤ
  list : List ℕ
  deriving DecidableEq

structure Zone where
  st : State
  pcp : Option PerCpuPages

/-! ### Freeing -/

/-- The `do` loop of `free_pcppages_bulk`, from the tail of the list: the pages it moves, and those
that stay. The list is not empty, as a page was just added to it. -/
def bulkLoop : ℤ → List ℕ → List ℕ × List ℕ
  | _, [] => ([], [])
  | count, page :: rest =>
    if count - 1 ≠ 0 ∧ rest ≠ [] then
      let r := bulkLoop (count - 1) rest
      (page :: r.1, r.2)
    else ([page], rest)

def freePcppagesBulk (s : State) (count : ℤ) (pcp : PerCpuPages) : State × PerCpuPages :=
  let (head, rest) := bulkLoop count pcp.list.reverse
  let pcp := { pcp with list := rest.reverse, count := pcp.count - head.length }
  (head.foldl (fun s page => freeOnePage s page 0) s, pcp)

def freeUnrefPageCommit (s : State) (pcp : PerCpuPages) (page : ℕ) : State × PerCpuPages :=
  let pcp := { pcp with list := page :: pcp.list, count := pcp.count + 1 }
  if pcp.count ≥ pcp.high then freePcppagesBulk s pcp.batch pcp else (s, pcp)

/-- `free_the_page`. -/
def freeThePage (z : Zone) (page order : ℕ) : Option Zone :=
  if order = 0 then
    z.pcp.map fun pcp =>
      let (s, pcp) := freeUnrefPageCommit z.st pcp page
      ⟨s, some pcp⟩
  else some { z with st := freeOnePage z.st page order }

/-- `__free_pages`. -/
def freePages (z : Zone) (page order : ℕ) : Option Zone := freeThePage z page order

/-! ### Allocating -/

/-- `rmqueue_bulk`, with `count` pages to go: the list and the number of pages. -/
def rmqueueBulk : ℕ → State → List ℕ → State × List ℕ × ℕ
  | 0, s, list => (s, list, 0)
  | count + 1, s, list =>
    match rmqueueSmallest s 0 with
    | (s, none) => (s, list, 0)
    | (s, some page) =>
      let r := rmqueueBulk count s (list ++ [page])
      (r.1, r.2.1, r.2.2 + 1)

/-- `__rmqueue_pcplist`. -/
def rmqueuePcplist (s : State) (pcp : PerCpuPages) : State × PerCpuPages × Option ℕ :=
  let (s, pcp) := if pcp.list = [] then
      let r := rmqueueBulk (toUlong pcp.batch) s pcp.list
      (r.1, { pcp with list := r.2.1, count := pcp.count + r.2.2 })
    else (s, pcp)
  match pcp.list with
  | [] => (s, pcp, none)
  | page :: list => (s, { pcp with list := list, count := pcp.count - 1 }, some page)

/-- `__alloc_pages`, through `get_page_from_freelist` and `rmqueue`. -/
def allocPages (z : Zone) (order : ℕ) : Option (Zone × Option ℕ) :=
  if order = 0 then
    z.pcp.map fun pcp =>
      let (s, pcp, page) := rmqueuePcplist z.st pcp
      (⟨s, some pcp⟩, page)
  else
    let (s, page) := rmqueueSmallest z.st order
    some ({ z with st := s }, page)

/-! ### Initialisation -/

/-- `pageset_init`. -/
def pagesetInit (BATCH_SIZE : ℕ) : PerCpuPages :=
  ⟨0, toInt (6 * BATCH_SIZE), toInt (max 1 BATCH_SIZE), []⟩

/-- The loop of `memory_init` that frees the range, with `n` rounds at most. -/
def freeRange (endPfn : ℕ) : ℕ → Zone → (startPfn : ℕ) → Option Zone
  | 0, z, _ => some z
  | n + 1, z, startPfn =>
    if startPfn < endPfn then
      let order := shrinkOrder startPfn endPfn (min (MAX_ORDER - 1) (ffs startPfn))
      (freePages z startPfn order).bind fun z => freeRange endPfn n z (startPfn + (1 <<< order))
    else some z

/-- `memory_init`. -/
def memoryInit (c : Config) (BATCH_SIZE : ℕ) (raw : ℕ → Page) : Option Zone :=
  (freeRange c.endPfn (c.endPfn - c.startPfn) ⟨initPages c raw, none⟩ c.startPfn).map fun z =>
    { z with pcp := some (pagesetInit BATCH_SIZE) }

/-! ### Runs -/

/-- The allocator together with the blocks its callers hold. -/
structure System where
  zone : Zone
  held : List Block

/-- One call: `__alloc_pages`, or `__free_pages` of a held block with its own order. -/
inductive Step : System → System → Prop
  | alloc {z z' : Zone} {held : List Block} {order page : ℕ} (ho : order < MAX_ORDER)
      (h : allocPages z order = some (z', some page)) : Step ⟨z, held⟩ ⟨z', ⟨page, order⟩ :: held⟩
  | allocNull {z z' : Zone} {held : List Block} {order : ℕ} (ho : order < MAX_ORDER)
      (h : allocPages z order = some (z', none)) : Step ⟨z, held⟩ ⟨z', held⟩
  | free {z z' : Zone} {held : List Block} {b : Block} (hb : b ∈ held)
      (h : freePages z b.head b.order = some z') : Step ⟨z, held⟩ ⟨z', held.erase b⟩

end HardStack.Buddy.PcpModel
