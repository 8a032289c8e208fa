import Mathlib

/-! # Transfers: `Device-Driver/i2c/Bus/kernel/i2c_bus.c`

`I2C_demo_xfer` and the interrupt handler. What an interrupt reads from the registers `I2C_DEMO_S` and
`I2C_DEMO_FIFO` comes with it, read by read; that the handler acknowledges it in `I2C_DEMO_S` has no
effect here. A pointer into the array of messages is an index, and to follow it outside of the array
has no result. The buffers are in one memory and may overlap. -/

namespace HardStack.I2c.Transfer

def I2C_DEMO_C_READ : BitVec 32 := 1 <<< 0
def I2C_DEMO_C_CLEAR : BitVec 32 := 1 <<< 4
def I2C_DEMO_C_ST : BitVec 32 := 1 <<< 7
def I2C_DEMO_C_INTD : BitVec 32 := 1 <<< 8
def I2C_DEMO_C_INIT : BitVec 32 := 1 <<< 9
def I2C_DEMO_C_INTR : BitVec 32 := 1 <<< 10
def I2C_DEMO_C_I2CEN : BitVec 32 := 1 <<< 15

def I2C_DEMO_S_DONE : BitVec 32 := 1 <<< 1
def I2C_DEMO_S_TXW : BitVec 32 := 1 <<< 2
def I2C_DEMO_S_RXR : BitVec 32 := 1 <<< 3
def I2C_DEMO_S_TXD : BitVec 32 := 1 <<< 4
def I2C_DEMO_S_RXD : BitVec 32 := 1 <<< 5
def I2C_DEMO_S_ERR : BitVec 32 := 1 <<< 8
def I2C_DEMO_S_CLKT : BitVec 32 := 1 <<< 9
def I2C_DEMO_S_LEN : BitVec 32 := 1 <<< 10

def EIO : ℤ := 5
def EOPNOTSUPP : ℤ := 95
def ETIMEDOUT : ℤ := 110
def EREMOTEIO : ℤ := 121

/-- `struct i2c_msg`; `read` is the flag `I2C_M_RD`. -/
structure Msg where
  addr : BitVec 16
  read : Bool
  len : ℕ
  buf : ℕ
  deriving DecidableEq

/-- `struct I2C_demo_dev` with the registers that a transfer writes, and the memory. The last three are
ghosts of the transfer: what was written to the FIFO, what was read from it, and where in memory, with
the index of the message. -/
structure State where
  currMsg : Option ℕ
  numMsgs : ℕ
  msgErr : BitVec 32
  msgBuf : ℕ
  msgBufRemaining : ℕ
  completed : Bool
  a : BitVec 32
  dlen : BitVec 32
  c : BitVec 32
  mem : ℕ → BitVec 8
  written : List (BitVec 8)
  received : List (BitVec 8)
  touched : List (Option ℕ × ℕ)

/-- What an interrupt reads from `I2C_DEMO_S` and from `I2C_DEMO_FIFO`, the `i`-th time each. -/
structure Irq where
  status : ℕ → BitVec 32
  fifo : ℕ → BitVec 32

/-! ### The buffer -/

/-- A byte of the message goes to the FIFO. -/
def State.send (s : State) : State :=
  { s with
    written := s.written ++ [s.mem s.msgBuf]
    touched := s.touched ++ [(s.currMsg, s.msgBuf)]
    msgBuf := s.msgBuf + 1
    msgBufRemaining := s.msgBufRemaining - 1 }

/-- A byte from the FIFO is stored. -/
def State.store (s : State) (byte : BitVec 8) : State :=
  { s with
    mem := Function.update s.mem s.msgBuf byte
    received := s.received ++ [byte]
    touched := s.touched ++ [(s.currMsg, s.msgBuf)]
    msgBuf := s.msgBuf + 1
    msgBufRemaining := s.msgBufRemaining - 1 }

/-- The loop of `I2C_demo_fill_txfifo`, with `i` reads of the status before. -/
def fillTxfifo (irq : Irq) (i : ℕ) (s : State) : State :=
  if s.msgBufRemaining = 0 then s
  else if irq.status i &&& I2C_DEMO_S_TXD = 0 then s
  else fillTxfifo irq (i + 1) s.send
termination_by s.msgBufRemaining
decreasing_by
  simp only [State.send]
  omega

/-- The loop of `I2C_demo_drain_rxfifo`, with `i` reads of the status and `j` of the FIFO before. It gives
the number of reads of the status, too. -/
def drainRxfifo (irq : Irq) (i j : ℕ) (s : State) : ℕ × State :=
  if s.msgBufRemaining = 0 then (i, s)
  else if irq.status i &&& I2C_DEMO_S_RXD = 0 then (i + 1, s)
  else drainRxfifo irq (i + 1) (j + 1) (s.store ((irq.fifo j).setWidth 8))
termination_by s.msgBufRemaining
decreasing_by
  simp only [State.store]
  omega

/-! ### The transfer -/

section

variable (msgs : List Msg)

/-- `I2C_demo_start_transfer`. -/
def startTransfer (s : State) : Option State :=
  if s.numMsgs = 0 then some s
  else do
    let k ← s.currMsg
    let msg ← msgs[k]?
    let c := I2C_DEMO_C_ST ||| I2C_DEMO_C_I2CEN
    let c := if msg.read then c ||| (I2C_DEMO_C_READ ||| I2C_DEMO_C_INTR) else c ||| I2C_DEMO_C_INIT
    let c := if s.numMsgs = 1 then c ||| I2C_DEMO_C_INTD else c
    some { s with
      numMsgs := s.numMsgs - 1
      msgBuf := msg.buf
      msgBufRemaining := msg.len
      a := msg.addr.setWidth 32
      dlen := BitVec.ofNat 32 msg.len
      c := c }

/-- `I2C_demo_finish_transfer`. -/
def finishTransfer (s : State) : State :=
  { s with currMsg := none, numMsgs := 0, msgBuf := 0, msgBufRemaining := 0 }

/-- `I2C_demo_xfer` up to the wait, or its error. -/
def xferStart (s : State) : Option (Except ℤ State) :=
  if msgs.dropLast.any (·.read) then some (.error (-EOPNOTSUPP))
  else do
    let s := { s with
      currMsg := some 0, numMsgs := msgs.length, completed := false
      written := [], received := [], touched := [] }
    let s ← startTransfer msgs s
    some (.ok s)

/-- `I2C_demo_xfer` from the wait on, with what is left of the timeout. -/
def xferEnd (s : State) (timeLeft : ℕ) : ℤ × State :=
  let s := finishTransfer s
  if timeLeft = 0 then (-ETIMEDOUT, { s with c := I2C_DEMO_C_CLEAR })
  else if s.msgErr = 0 then (msgs.length, s)
  else if s.msgErr &&& I2C_DEMO_S_ERR ≠ 0 then (- EREMOTEIO, s)
  else (- EIO, s)

/-! ### Interrupts -/

/-- The label `complete`. -/
def complete (s : State) (msgErr : BitVec 32) : State :=
  { s with msgErr := msgErr, c := I2C_DEMO_C_CLEAR, completed := true }

/-- The branch of `I2C_DEMO_S_DONE`. -/
def isrDone (irq : Irq) (s : State) : Option State := do
  let (val, s) ← match s.currMsg with
    | none => some (irq.status 0, s)
    | some k => do
      let msg ← msgs[k]?
      if msg.read then
        let (i, s) := drainRxfifo irq 1 0 s
        some (irq.status i, s)
      else some (irq.status 0, s)
  if val &&& I2C_DEMO_S_RXD ≠ 0 ∨ s.msgBufRemaining ≠ 0 then some (complete s I2C_DEMO_S_LEN)
  else some (complete s 0)

/-- `I2C_demo_isr`. -/
def isr (irq : Irq) (s : State) : Option State :=
  let val := irq.status 0
  let err := val &&& (I2C_DEMO_S_CLKT ||| I2C_DEMO_S_ERR)
  if err ≠ 0 then some (complete s err)
  else if val &&& I2C_DEMO_S_DONE ≠ 0 then isrDone msgs irq s
  else if val &&& I2C_DEMO_S_TXW ≠ 0 then
    if s.msgBufRemaining = 0 then some (complete s (val ||| I2C_DEMO_S_LEN))
    else
      let s := fillTxfifo irq 1 s
      if s.numMsgs ≠ 0 ∧ s.msgBufRemaining = 0 then
        startTransfer msgs { s with currMsg := s.currMsg.map (· + 1) }
      else some s
  else if val &&& I2C_DEMO_S_RXR ≠ 0 then
    if s.msgBufRemaining = 0 then some (complete s (val ||| I2C_DEMO_S_LEN))
    else some (drainRxfifo irq 1 0 s).2
  else some s

/-- The interrupts one after another. -/
def interrupts (s : State) (irqs : List Irq) : Option State := irqs.foldlM (fun s irq => isr msgs irq s) s

end

end HardStack.I2c.Transfer
