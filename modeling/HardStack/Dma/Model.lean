import Mathlib

/-! # The emulated device of `Device-Driver/DMA/BiscuitOS-dma-device-QEMU-emulate`

`BiscuitOS-DMA.c`: the accesses of the guest to the registers, and the timer of the transfer. The
registers are 64 bits wide, `within` and `BiscuitOS_check_range` compute in 32. `hw_error` stops the
machine (`none`). `dma_buf` and the memory of the guest are functions of the index and of the address. -/

namespace HardStack.Dma.Model

def DMA_IRQ : BitVec 32 := 0x100
def DMA_BASE : BitVec 32 := 0x40000
def DMA_SIZE : BitVec 32 := 2 * 1024 * 1024
def BISCUITOS_DMA_RUN : BitVec 64 := 0x1
def BISCUITOS_DMA_FROM_PCI : BitVec 64 := 1
def BISCUITOS_DMA_IRQ : BitVec 64 := 0x8
def BISCUITOS_STATUS_IRQFACT : BitVec 32 := 0x80

def REG_DMA_STATUS : ℕ := 0x20
def REG_INT_STATUS : ℕ := 0x24
def REG_PCI_BASE : ℕ := 0x60
def REG_PCI_SIZE : ℕ := 0x64
def REG_TRANS_SRC : ℕ := 0x68
def REG_TRANS_DST : ℕ := 0x6c
def REG_TRANS_CNT : ℕ := 0x70
def REG_TRANS_CMD : ℕ := 0x74
def REG_TRANS_RUN : ℕ := 0x78
def REG_INT_RAISE : ℕ := 0x80
def REG_INT_DOWN : ℕ := 0x84

def dmaDir (cmd : BitVec 64) : BitVec 64 := (cmd &&& 0x2) >>> 1

/-- `struct dma_state`. -/
structure DmaState where
  src : BitVec 64
  dst : BitVec 64
  cnt : BitVec 64
  cmd : BitVec 64
  deriving DecidableEq

/-- `BiscuitOS_DMA_State`; `armed` tells whether `dma_timer` is running. -/
structure State where
  status : BitVec 32
  irqStatus : BitVec 32
  dma : DmaState
  armed : Bool
  dmaBuf : ℕ → BitVec 8
  dmaMask : BitVec 64
  ram : ℕ → BitVec 8

/-! ### The timer -/

def within (addr start fin : BitVec 32) : Bool := start ≤ addr && addr < fin

/-- `BiscuitOS_check_range`; `false` where it calls `hw_error`. -/
def checkRange (addr size1 start size2 : BitVec 32) : Bool :=
  let end1 := addr + size1
  let end2 := start + size2
  within addr start end2 && (addr < end1 && within end1 start end2)

def clampAddr (s : State) (addr : BitVec 64) : BitVec 64 := addr &&& s.dmaMask

/-- `cnt` bytes copied from `src` on to `dst` on. -/
def copyBytes (source target : ℕ → BitVec 8) (src dst cnt : ℕ) : ℕ → BitVec 8 := fun i =>
  if dst ≤ i ∧ i < dst + cnt then source (src + (i - dst)) else target i

/-- `pci_dma_write` from an index of `dma_buf`. -/
def pciDmaWrite (s : State) (addr : BitVec 64) (index : BitVec 32) (cnt : BitVec 64) : State :=
  { s with ram := copyBytes s.dmaBuf s.ram index.toNat addr.toNat cnt.toNat }

/-- `pci_dma_read` to an index of `dma_buf`. -/
def pciDmaRead (s : State) (addr : BitVec 64) (index : BitVec 32) (cnt : BitVec 64) : State :=
  { s with dmaBuf := copyBytes s.ram s.dmaBuf addr.toNat index.toNat cnt.toNat }

def raiseIrq (s : State) (val : BitVec 32) : State := { s with irqStatus := s.irqStatus ||| val }
def lowerIrq (s : State) (val : BitVec 32) : State := { s with irqStatus := s.irqStatus &&& ~~~val }

/-- The end of `BiscuitOS_dma_timer`. -/
def finishTransfer (s : State) : State :=
  let s := { s with dma := { s.dma with cmd := s.dma.cmd &&& ~~~BISCUITOS_DMA_RUN } }
  if s.dma.cmd &&& BISCUITOS_DMA_IRQ ≠ 0 then raiseIrq s DMA_IRQ else s

/-- `BiscuitOS_dma_timer`. -/
def dmaTimer (s : State) : Option State :=
  if s.dma.cmd &&& BISCUITOS_DMA_RUN = 0 then some s
  else if dmaDir s.dma.cmd = BISCUITOS_DMA_FROM_PCI then
    let src := s.dma.src.setWidth 32
    if checkRange src (s.dma.cnt.setWidth 32) DMA_BASE DMA_SIZE then
      some (finishTransfer (pciDmaWrite s (clampAddr s s.dma.dst) (src - DMA_BASE) s.dma.cnt))
    else none
  else
    let dst := s.dma.dst.setWidth 32
    if checkRange dst (s.dma.cnt.setWidth 32) DMA_BASE DMA_SIZE then
      some (finishTransfer (pciDmaRead s (clampAddr s s.dma.src) (dst - DMA_BASE) s.dma.cnt))
    else none

/-! ### The registers -/

/-- `dma_rw` for a write: the registers afterwards, and whether the write was taken. -/
def dmaWrite (s : State) (dma : DmaState) (timer : Bool) : State :=
  if s.dma.cmd &&& BISCUITOS_DMA_RUN ≠ 0 then s
  else { s with dma := dma, armed := s.armed || timer }

/-- `BiscuitOS_mmio_read`. -/
def mmioRead (s : State) (addr size : ℕ) : BitVec 64 :=
  if size ≠ 4 then BitVec.allOnes 64
  else if addr = REG_DMA_STATUS then s.status.setWidth 64
  else if addr = REG_INT_STATUS then s.irqStatus.setWidth 64
  else if addr = REG_PCI_BASE then DMA_BASE.setWidth 64
  else if addr = REG_PCI_SIZE then DMA_SIZE.setWidth 64
  else if addr = REG_TRANS_SRC then s.dma.src
  else if addr = REG_TRANS_DST then s.dma.dst
  else if addr = REG_TRANS_CNT then s.dma.cnt
  else if addr = REG_TRANS_CMD then s.dma.cmd
  else BitVec.allOnes 64

/-- `BiscuitOS_mmio_write`. -/
def mmioWrite (s : State) (addr : ℕ) (val : BitVec 64) (size : ℕ) : State :=
  if addr < 0x80 ∧ size ≠ 4 then s
  else if 0x80 ≤ addr ∧ size ≠ 4 ∧ size ≠ 8 then s
  else if addr = REG_DMA_STATUS then
    if val &&& BISCUITOS_STATUS_IRQFACT.setWidth 64 ≠ 0 then
      { s with status := s.status ||| BISCUITOS_STATUS_IRQFACT }
    else { s with status := s.status &&& ~~~BISCUITOS_STATUS_IRQFACT }
  else if addr = REG_INT_RAISE then raiseIrq s (val.setWidth 32)
  else if addr = REG_INT_DOWN then lowerIrq s (val.setWidth 32)
  else if addr = REG_TRANS_SRC then dmaWrite s { s.dma with src := val } false
  else if addr = REG_TRANS_DST then dmaWrite s { s.dma with dst := val } false
  else if addr = REG_TRANS_CNT then dmaWrite s { s.dma with cnt := val } false
  else if addr = REG_TRANS_RUN then
    if val &&& BISCUITOS_DMA_RUN = 0 then s else dmaWrite s { s.dma with cmd := val } true
  else s

/-! ### Runs -/

/-- The device with any contents of its buffer, its mask and the memory of the guest. -/
def init (dmaBuf ram : ℕ → BitVec 8) (dmaMask : BitVec 64) : State where
  status := 0
  irqStatus := 0
  dma := ⟨0, 0, 0, 0⟩
  armed := false
  dmaBuf := dmaBuf
  dmaMask := dmaMask
  ram := ram

/-- An access of the guest, or the timer. -/
inductive Event
  | read (addr size : ℕ)
  | write (addr : ℕ) (val : BitVec 64) (size : ℕ)
  | timer
  deriving DecidableEq

/-- The state after an event; a timer that is not armed does not expire. -/
def exec (s : State) : Event → Option State
  | .read _ _ => some s
  | .write addr val size => some (mmioWrite s addr val size)
  | .timer => if s.armed then dmaTimer { s with armed := false } else some s

end HardStack.Dma.Model
