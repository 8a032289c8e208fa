import HardStack.Dma.Model
import HardStack.Lib.Run

/-! # The window of the transfers

The check accepts a transfer if the low 32 bits of its device side and of its count make a range that
ends before the last byte of the window. So it is right for all transfers but those that end exactly
there, and those whose registers are more than their low bits. -/

namespace HardStack.Dma.Window

open HardStack.Dma.Model

variable {s s' : State} {addr size : BitVec 32}

/-- A transfer has been requested and not yet carried out. -/
def Requested (s : State) : Prop := s.dma.cmd &&& BISCUITOS_DMA_RUN ≠ 0

/-- The register with the device side of the transfer. -/
def deviceSide (s : State) : BitVec 64 :=
  if dmaDir s.dma.cmd = BISCUITOS_DMA_FROM_PCI then s.dma.src else s.dma.dst

/-- The bytes of the transfer lie in the window, and there are some. -/
def InWindow (s : State) : Prop :=
  DMA_BASE.toNat ≤ (deviceSide s).toNat ∧ 1 ≤ s.dma.cnt.toNat ∧
    (deviceSide s).toNat + s.dma.cnt.toNat ≤ DMA_BASE.toNat + DMA_SIZE.toNat

instance : DecidablePred Requested := fun _ => inferInstanceAs (Decidable (_ ≠ _))
instance : DecidablePred InWindow := fun _ => inferInstanceAs (Decidable (_ ∧ _ ∧ _))

/-- The index of `dma_buf` at which the transfer starts. -/
def index (s : State) : BitVec 32 := (deviceSide s).setWidth 32 - DMA_BASE

/-- **What is promised of an event** in the state where it comes. -/
structure Right (s : State) (event : Event) : Prop where
  frozen : Requested s → event ≠ .timer → ∃ s', exec s event = some s' ∧ s'.dma = s.dma ∧ s'.armed
  untouched : event ≠ .timer → ∃ s', exec s event = some s' ∧ s'.dmaBuf = s.dmaBuf ∧ s'.ram = s.ram
  only : event = .timer → s.armed → Requested s → ∀ s', exec s event = some s' →
    InWindow s ∧ (index s).toNat + s.dma.cnt.toNat ≤ DMA_SIZE.toNat
  all : event = .timer → s.armed → Requested s → InWindow s → ∃ s', exec s event = some s'
  clear : event = .timer → s.armed → ∀ s', exec s event = some s' → ¬ Requested s'

/-- The check accepts the low bits of the registers. -/
def Accepted (s : State) : Prop :=
  checkRange ((deviceSide s).setWidth 32) (s.dma.cnt.setWidth 32) DMA_BASE DMA_SIZE

instance : DecidablePred Accepted := fun _ => inferInstanceAs (Decidable (_ = true))

/-- The transfers on which the check is right: they do not end at the end of the window, and if they are
accepted, the registers are no more than their low bits. -/
def Benign (s : State) (event : Event) : Prop :=
  event = .timer → s.armed → Requested s →
    ¬ (DMA_BASE.toNat ≤ (deviceSide s).toNat ∧ 1 ≤ s.dma.cnt.toNat ∧
      (deviceSide s).toNat + s.dma.cnt.toNat = DMA_BASE.toNat + DMA_SIZE.toNat) ∧
    (Accepted s → (deviceSide s).toNat < 2 ^ 32 ∧ s.dma.cnt.toNat < 2 ^ 32)

/-! ### The check -/

/-- What an access of the guest leaves: no byte is moved, a request is not changed, and there is none
without the timer. -/
structure Kept (s s' : State) : Prop where
  dmaBuf : s'.dmaBuf = s.dmaBuf
  ram : s'.ram = s.ram
  dma : Requested s → s'.dma = s.dma
  armed : s.armed → s'.armed
  request : Requested s' → Requested s ∨ s'.armed

end HardStack.Dma.Window
