import Mathlib
import HardStack.Lib.Bitmap

/-! # The compressed memory demo of `Memory-Allocator/Paging/BiscuitOS-Compact`

`kernel/main.c`. As in the swap demo, the memory is a function of the frame and the byte in it, the
page tables a function of the place of a `pte`, the area and the address, and the areas are mapped
shared. The compact space is a function of the offset from its start, past its end too, where a
compressor may write. All allocations succeed. -/

namespace HardStack.Compact.Model

def PAGE_SIZE : ℕ := 4096
def BISCUITOS_COMPACT_SIZE : ℕ := 8 * 1024 * 1024
def BISCUITOS_COMPACT_BUCK : ℕ := 64
def BISCUITOS_PER_BLOCKS : ℕ := PAGE_SIZE / BISCUITOS_COMPACT_BUCK
def BISCUITOS_COMPACT_NR : ℕ := BISCUITOS_COMPACT_SIZE / BISCUITOS_COMPACT_BUCK

/-- The `lzo` compressor of the kernel: it writes at least a byte and at most its worst case, and the
decompressor gives the page back, also when it is handed up to a block less a byte too much. -/
structure Lzo where
  cot_compress : List UInt8 → List UInt8
  cot_decompress : List UInt8 → List UInt8
  pos : ∀ src, src.length = PAGE_SIZE → 1 ≤ (cot_compress src).length
  worst : ∀ src, src.length = PAGE_SIZE →
    (cot_compress src).length ≤ PAGE_SIZE + PAGE_SIZE / 16 + 67
  restores : ∀ src tail, src.length = PAGE_SIZE → tail.length ≤ BISCUITOS_COMPACT_BUCK - 1 →
    cot_decompress (cot_compress src ++ tail) = src

/-- A page of an area: the `vma` and the address; it is also the place of its `pte`. -/
structure Place where
  vma : ℕ
  address : ℕ
  deriving DecidableEq

/-- `struct BiscuitOS_compact_socket`. -/
structure Socket where
  vma : ℕ
  address : ℕ
  socket : ℕ
  blocks : ℕ
  deriving DecidableEq

/-- `struct BiscuitOS_page`; `pte` is a pointer to the place of a `pte`. -/
structure BPage where
  vma : ℕ
  address : ℕ
  page : ℕ
  pte : Option Place
  deriving DecidableEq

def Socket.place (socket : Socket) : Place := ⟨socket.vma, socket.address⟩
def BPage.place (bpage : BPage) : Place := ⟨bpage.vma, bpage.address⟩

/-- What the driver works on: the page tables, the memory, `BiscuitOS_Compact_Space`,
`BiscuitOS_Bitmap`, `BiscuitOS_compact_list` and `BiscuitOS_page_list`. -/
structure State where
  pte : Place → Option ℕ
  mem : ℕ → ℕ → UInt8
  space : ℕ → UInt8
  bitmap : ℕ → Bool
  compactList : List Socket
  pageList : List BPage

/-- `__ALIGN_MASK`. -/
def ALIGN_MASK (x mask : ℕ) : ℕ := (x + mask) - (x + mask) % (mask + 1)

/-- `bitmap_find_next_zero_area_off`, for a mask that is one less than a power of two. -/
def bitmapFindNextZeroAreaOff (map : ℕ → Bool) (size start nr alignMask alignOffset : ℕ) : ℕ :=
  Lib.Bitmap.zeroArea map (fun x => ALIGN_MASK (x + alignOffset) alignMask - alignOffset) size nr
    (size + 1) start

def bitmapSet (map : ℕ → Bool) (start nr : ℕ) : ℕ → Bool :=
  fun i => if start ≤ i ∧ i < start + nr then true else map i

def bitmapClear (map : ℕ → Bool) (start nr : ℕ) : ℕ → Bool :=
  fun i => if start ≤ i ∧ i < start + nr then false else map i

/-- `n` bytes of a buffer from `pos` on. -/
def bytes (buf : ℕ → UInt8) (pos n : ℕ) : List UInt8 := (List.range n).map fun i => buf (pos + i)

/-- A buffer after `src` has been written at `pos`. -/
def write (buf : ℕ → UInt8) (pos : ℕ) (src : List UInt8) : ℕ → UInt8 :=
  fun x => if pos ≤ x then (src[x - pos]?).getD (buf x) else buf x

/-- The search of `BiscuitOS_compress` for the place to write to. -/
def findSocket (s : State) : ℕ :=
  bitmapFindNextZeroAreaOff s.bitmap BISCUITOS_COMPACT_NR 0 BISCUITOS_PER_BLOCKS 1 0

/-- What the compressor writes for a page. -/
def compressed (lzo : Lzo) (s : State) (page : ℕ) : List UInt8 :=
  lzo.cot_compress (bytes (s.mem page) 0 PAGE_SIZE)

/-- The blocks that `dlen` bytes take. -/
def blocksOf (dlen : ℕ) : ℕ := (dlen + (BISCUITOS_COMPACT_BUCK - 1)) / BISCUITOS_COMPACT_BUCK

/-- `BiscuitOS_compress`; `none` is the `BUG_ON`. -/
def compress (lzo : Lzo) (s : State) (bpage : BPage) : Option State :=
  let index := findSocket s
  if BISCUITOS_COMPACT_NR < index then none
  else
    let out := compressed lzo s bpage.page
    let blocks := blocksOf out.length
    some { s with
      space := write s.space (index * BISCUITOS_COMPACT_BUCK) out
      bitmap := bitmapSet s.bitmap index blocks
      pte := match bpage.pte with
        | none => s.pte
        | some place => Function.update s.pte place none
      compactList := ⟨bpage.vma, bpage.address, index, blocks⟩ :: s.compactList }

/-- `BiscuitOS_decompress`, where a socket that is not found is `NULL`. -/
def decompress (lzo : Lzo) (s : State) (bpage : BPage) : State :=
  match s.compactList.find? fun tmp => tmp.address == bpage.address && tmp.vma == bpage.vma with
  | none => s
  | some socket =>
    let slen := socket.blocks * BISCUITOS_COMPACT_BUCK
    let dst := lzo.cot_decompress (bytes s.space (socket.socket * BISCUITOS_COMPACT_BUCK) slen)
    { s with
      mem := Function.update s.mem bpage.page (write (s.mem bpage.page) 0 dst)
      bitmap := bitmapClear s.bitmap socket.socket socket.blocks
      compactList := s.compactList.erase socket }

/-- `vm_insert_page`: it fails where something is mapped already. -/
def vmInsertPage (s : State) (place : Place) (page : ℕ) : Option State :=
  if (s.pte place).isSome then none
  else some { s with pte := Function.update s.pte place (some page) }

/-- `vm_fault`, with `page` the frame that `alloc_page` returns. -/
def vmFault (lzo : Lzo) (s : State) (place : Place) (page : ℕ) : State :=
  match vmInsertPage s place page with
  | none => s
  | some s =>
    if (s.pte place).isSome then
      let bpage := ⟨place.vma, place.address, page, some place⟩
      decompress lzo { s with pageList := bpage :: s.pageList } bpage
    else decompress lzo s ⟨0, 0, 0, none⟩

/-- The loop of `BISCUITOS_COMPRESS` over the pages that are left. -/
def compressLoop (lzo : Lzo) : List BPage → State → Option State
  | [], s => some s
  | bpage :: next, s => do
    let s ← compress lzo s bpage
    compressLoop lzo next { s with pageList := s.pageList.erase bpage }

/-- `BiscuitOS_ioctl` with `BISCUITOS_COMPRESS`. -/
def ioctlCompress (lzo : Lzo) (s : State) : Option State := compressLoop lzo s.pageList s

/-- A user's store of a byte to a page that is mapped. -/
def store (s : State) (page off : ℕ) (byte : UInt8) : State :=
  { s with mem := Function.update s.mem page (Function.update (s.mem page) off byte) }

/-- The module has been loaded: nothing is mapped and nothing is compressed. -/
def init (mem : ℕ → ℕ → UInt8) (space : ℕ → UInt8) : State where
  pte := fun _ => none
  mem := mem
  space := space
  bitmap := fun _ => false
  compactList := []
  pageList := []

/-! ### Runs -/

/-- `alloc_page` returns a frame that no `pte` maps. -/
def FreshPage (s : State) (page : ℕ) : Prop := ∀ place, s.pte place ≠ some page

/-- The bytes of the page at a mapped place. -/
def content (s : State) (place : Place) : Option (List UInt8) :=
  (s.pte place).map fun page => bytes (s.mem page) 0 PAGE_SIZE

/-- The driver, and for each place that is compressed what the page held then. -/
structure System where
  st : State
  saved : Place → Option (List UInt8)

/-- The places of the pages that the driver knows to be mapped. -/
def Listed (s : State) (place : Place) : Prop := ∃ bpage ∈ s.pageList, bpage.place = place

instance (s : State) (place : Place) : Decidable (Listed s place) :=
  inferInstanceAs (Decidable (∃ bpage ∈ s.pageList, bpage.place = place))

/-- What is saved after the ioctl: the contents of the pages of the list. -/
def saveListed (s : State) (saved : Place → Option (List UInt8)) : Place → Option (List UInt8) :=
  fun place => if Listed s place then content s place else saved place

inductive Op
  | store
  | fault
  | compress

/-- A store, a fault or an ioctl that does not run into the `BUG_ON`. The pages of the fixed areas
are `areas`. -/
inductive Step (lzo : Lzo) (areas : Set Place) : Op → System → System → Prop
  | store {s : State} {saved : Place → Option (List UInt8)} {place : Place} {page off : ℕ}
      (byte : UInt8) (hp : s.pte place = some page) (ho : off < PAGE_SIZE) :
      Step lzo areas .store ⟨s, saved⟩ ⟨store s page off byte, saved⟩
  | fault {s : State} {saved : Place → Option (List UInt8)} {place : Place} {page : ℕ}
      (ha : place ∈ areas) (hp : FreshPage s page) :
      Step lzo areas .fault ⟨s, saved⟩
        ⟨vmFault lzo s place page, Function.update saved place none⟩
  | compress {s s' : State} {saved : Place → Option (List UInt8)}
      (hs : ioctlCompress lzo s = some s') :
      Step lzo areas .compress ⟨s, saved⟩ ⟨s', saveListed s saved⟩

/-- The states of all runs. -/
def Reachable (lzo : Lzo) (areas : Set Place) (mem : ℕ → ℕ → UInt8) (space : ℕ → UInt8)
    (t : System) : Prop :=
  Relation.ReflTransGen (fun t t' => ∃ op, Step lzo areas op t t') ⟨init mem space, fun _ => none⟩ t

end HardStack.Compact.Model
