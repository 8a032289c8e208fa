import Mathlib
import HardStack.Lib.Run

/-! # The swap demo of `Memory-Allocator/Paging/BiscuitOS-SWAP`

`kernel/main.c`. The memory of the machine is a function of the page frame and the byte in it, the
swap space a function of the position in the file, and the page tables a function of the place of a
`pte`: the area and the address, since areas do not share one. The areas are mapped shared, so that
a store goes to the frame the `pte` maps. All allocations succeed. -/

namespace HardStack.Swap.Model

def PAGE_SIZE : ℕ := 4096
def BISCUITOS_SWAP_LEN : ℕ := 8 * 1024 * 1024
def BISCUITOS_SWAP_NR : ℕ := BISCUITOS_SWAP_LEN / PAGE_SIZE

/-- A page of an area: the `vma` and the address; it is also the place of its `pte`. -/
structure Place where
  vma : ℕ
  address : ℕ
  deriving DecidableEq

/-- `struct BiscuitOS_swap_entry`. -/
structure SwapEntry where
  vma : ℕ
  address : ℕ
  val : ℕ
  deriving DecidableEq

/-- `struct BiscuitOS_page`; `pte` is a pointer to the place of a `pte`. -/
structure BPage where
  vma : ℕ
  address : ℕ
  page : ℕ
  pte : Option Place
  deriving DecidableEq

def SwapEntry.place (entry : SwapEntry) : Place := ⟨entry.vma, entry.address⟩
def BPage.place (bpage : BPage) : Place := ⟨bpage.vma, bpage.address⟩

/-- What the driver works on: the page tables, the memory, the swap space, `BiscuitOS_Bitmap`,
`BiscuitOS_swap_list` and `BiscuitOS_page_list`. -/
structure State where
  pte : Place → Option ℕ
  mem : ℕ → ℕ → UInt8
  file : ℕ → UInt8
  bitmap : ℕ → Bool
  swapList : List SwapEntry
  pageList : List BPage

/-- `find_first_zero_bit(BiscuitOS_Bitmap, BISCUITOS_SWAP_NR)`. -/
def findFirstZeroBit (bitmap : ℕ → Bool) : ℕ :=
  ((List.range BISCUITOS_SWAP_NR).find? fun i => !bitmap i).getD BISCUITOS_SWAP_NR

/-- `kernel_write` of a page at `pos`. -/
def kernelWrite (file addr : ℕ → UInt8) (pos : ℕ) : ℕ → UInt8 :=
  fun x => if pos ≤ x ∧ x < pos + PAGE_SIZE then addr (x - pos) else file x

/-- `kernel_read` of a page at `pos`. -/
def kernelRead (file addr : ℕ → UInt8) (pos : ℕ) : ℕ → UInt8 :=
  fun off => if off < PAGE_SIZE then file (pos + off) else addr off

/-- `BiscuitOS_swap_out`. -/
def swapOut (s : State) (bpage : BPage) : State :=
  let index := findFirstZeroBit s.bitmap
  { s with
    bitmap := Function.update s.bitmap index true
    file := kernelWrite s.file (s.mem bpage.page) (index * PAGE_SIZE)
    pte := match bpage.pte with
      | none => s.pte
      | some place => Function.update s.pte place none
    swapList := ⟨bpage.vma, bpage.address, index⟩ :: s.swapList }

/-- `BiscuitOS_swap_in`, where an entry that is not found is `NULL`. -/
def swapIn (s : State) (bpage : BPage) : State :=
  match s.swapList.find? fun tmp => tmp.address == bpage.address && tmp.vma == bpage.vma with
  | none => s
  | some entry =>
    let pos := entry.val * PAGE_SIZE
    { s with
      mem := Function.update s.mem bpage.page (kernelRead s.file (s.mem bpage.page) pos)
      bitmap := Function.update s.bitmap entry.val false
      swapList := s.swapList.erase entry }

/-- `vm_insert_page`: it fails where something is mapped already. -/
def vmInsertPage (s : State) (place : Place) (page : ℕ) : Option State :=
  if (s.pte place).isSome then none
  else some { s with pte := Function.update s.pte place (some page) }

/-- `vm_fault`, with `page` the frame that `alloc_page` returns. -/
def vmFault (s : State) (place : Place) (page : ℕ) : State :=
  match vmInsertPage s place page with
  | none => s
  | some s =>
    if (s.pte place).isSome then
      let bpage := ⟨place.vma, place.address, page, some place⟩
      swapIn { s with pageList := bpage :: s.pageList } bpage
    else swapIn s ⟨0, 0, 0, none⟩

/-- The loop of `BISCUITOS_SWAP_OUT` over the pages that are left. -/
def swapOutLoop : List BPage → State → State
  | [], s => s
  | bpage :: next, s =>
    let s := swapOut s bpage
    swapOutLoop next { s with pageList := s.pageList.erase bpage }

/-- `BiscuitOS_ioctl` with `BISCUITOS_SWAP_OUT`. -/
def ioctlSwapOut (s : State) : State := swapOutLoop s.pageList s

/-- A user's store of a byte to a page that is mapped. -/
def store (s : State) (page off : ℕ) (byte : UInt8) : State :=
  { s with mem := Function.update s.mem page (Function.update (s.mem page) off byte) }

/-- The module has been loaded: nothing is mapped and nothing is out. -/
def init (mem : ℕ → ℕ → UInt8) (file : ℕ → UInt8) : State where
  pte := fun _ => none
  mem := mem
  file := file
  bitmap := fun _ => false
  swapList := []
  pageList := []

/-! ### Runs -/

/-- `alloc_page` returns a frame that no `pte` maps. -/
def FreshPage (s : State) (page : ℕ) : Prop := ∀ place, s.pte place ≠ some page

/-- What the page at a mapped place holds. -/
def content (s : State) (place : Place) : Option (ℕ → UInt8) := (s.pte place).map s.mem

/-- The driver, and for each place that is swapped out what the page held then. -/
structure System where
  st : State
  saved : Place → Option (ℕ → UInt8)

/-- The places of the pages that the driver knows to be mapped. -/
def Listed (s : State) (place : Place) : Prop := ∃ bpage ∈ s.pageList, bpage.place = place

instance (s : State) (place : Place) : Decidable (Listed s place) :=
  inferInstanceAs (Decidable (∃ bpage ∈ s.pageList, bpage.place = place))

/-- A store, a fault or an ioctl. The pages of the fixed areas are `areas`; no more pages are out at
once than there are slots. -/
inductive Step (areas : Set Place) : System → System → Prop
  | store {s : State} {saved : Place → Option (ℕ → UInt8)} {place : Place} {page off : ℕ}
      (byte : UInt8) (hp : s.pte place = some page) (ho : off < PAGE_SIZE) :
      Step areas ⟨s, saved⟩ ⟨store s page off byte, saved⟩
  | fault {s : State} {saved : Place → Option (ℕ → UInt8)} {place : Place} {page : ℕ}
      (ha : place ∈ areas) (hp : FreshPage s page) :
      Step areas ⟨s, saved⟩ ⟨vmFault s place page, Function.update saved place none⟩
  | swapOut {s : State} {saved : Place → Option (ℕ → UInt8)}
      (hn : s.swapList.length + s.pageList.length ≤ BISCUITOS_SWAP_NR) :
      Step areas ⟨s, saved⟩
        ⟨ioctlSwapOut s, fun place => if Listed s place then content s place else saved place⟩

/-- The states of all runs. -/
def Reachable (areas : Set Place) (mem : ℕ → ℕ → UInt8) (file : ℕ → UInt8) (t : System) : Prop :=
  Relation.ReflTransGen (Step areas) ⟨init mem file, fun _ => none⟩ t

end HardStack.Swap.Model
