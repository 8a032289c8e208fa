import Mathlib

/-! # The EEPROM of `Device-Driver/i2c/Device/AT24C08/Chest`

`at24c08_lib.c`. The chip is a function of the address in its 256 bytes; it works as the comments of the
library say. A buffer is a list of its bytes, and an access outside it is no step (`none`). Every
`ioctl` succeeds: it returns the number of messages. -/

namespace HardStack.Eeprom.Model

def I2C_CHUNK_SIZE : ℕ := 8

def divUp (x y : ℕ) : ℕ := (x + (y - 1)) / y

/-! ### The chip -/

/-- The address after a byte of a page write: the lower four bits are incremented. -/
def nextInPage (address : ℕ) : ℕ := address / 16 * 16 + (address + 1) % 16

/-- A page write of the data words. -/
def chipWrite : (ℕ → UInt8) → ℕ → List UInt8 → ℕ → UInt8
  | chip, _, [] => chip
  | chip, address, data :: rest => chipWrite (Function.update chip address data) (nextInPage address) rest

/-- A sequential read of `n` data words: the address rolls over at the end of the memory. -/
def chipRead (chip : ℕ → UInt8) : ℕ → ℕ → List UInt8
  | _, 0 => []
  | address, n + 1 => chip address :: chipRead chip ((address + 1) % 256) n

/-! ### The library -/

/-- The `len` bytes of a buffer from `pos` on. -/
def fetch (buf : List UInt8) (pos len : ℕ) : Option (List UInt8) :=
  if pos + len ≤ buf.length then some ((buf.drop pos).take len) else none

/-- The bytes are put into a buffer from `pos` on. -/
def put (buf : List UInt8) (pos : ℕ) (data : List UInt8) : Option (List UInt8) :=
  if pos + data.length ≤ buf.length then some (buf.take pos ++ data ++ buf.drop (pos + data.length))
  else none

/-- `at24c08_Sequen_read` into `buf + pos`: the buffer and the result. -/
def sequenRead (chip : ℕ → UInt8) (offset : ℕ) (buf : List UInt8) (pos len : ℕ) :
    Option (List UInt8 × ℤ) :=
  (put buf pos (chipRead chip offset len)).map fun buf => (buf, 2)

/-- `at24c08_Page_write` from `buf + pos`: the chip and the result. -/
def pageWrite (chip : ℕ → UInt8) (offset : ℕ) (buf : List UInt8) (pos len : ℕ) :
    Option ((ℕ → UInt8) × ℤ) :=
  (fetch buf pos len).map fun data => (chipWrite chip offset data, 1)

/-- The chunk loop of `at24c08_packet_read`, with `n` rounds left. An offset is an `unsigned char`; `ret`
is `none` as long as it has no value. -/
def readLoop (chip : ℕ → UInt8) (offset : ℕ) : ℕ → ℕ → List UInt8 → Option ℤ →
    Option (List UInt8 × Option ℤ)
  | 0, _, buf, ret => some (buf, ret)
  | n + 1, idx, buf, _ => do
    let (buf, ret) ← sequenRead chip ((offset + idx * I2C_CHUNK_SIZE) % 256) buf (idx * I2C_CHUNK_SIZE)
      I2C_CHUNK_SIZE
    if ret < 0 then some (buf, ret)
    else readLoop chip offset n (idx + 1) buf ret

/-- `at24c08_packet_read`. -/
def packetRead (chip : ℕ → UInt8) (offset : ℕ) (buf : List UInt8) (len : ℕ) :
    Option (List UInt8 × Option ℤ) := do
  let chunk := divUp len I2C_CHUNK_SIZE
  let remain := len % I2C_CHUNK_SIZE
  let (buf, ret) ← readLoop chip offset chunk 0 buf none
  if remain ≠ 0 then do
    let (buf, ret) ← sequenRead chip ((offset + chunk * I2C_CHUNK_SIZE) % 256) buf
      (chunk * I2C_CHUNK_SIZE) remain
    some (buf, some ret)
  else some (buf, ret)

/-- The chunk loop of `at24c08_packet_write`. -/
def writeLoop (offset : ℕ) (buf : List UInt8) : ℕ → ℕ → (ℕ → UInt8) → Option ℤ →
    Option ((ℕ → UInt8) × Option ℤ)
  | 0, _, chip, ret => some (chip, ret)
  | n + 1, idx, chip, _ => do
    let (chip, ret) ← pageWrite chip ((offset + idx * I2C_CHUNK_SIZE) % 256) buf (idx * I2C_CHUNK_SIZE)
      I2C_CHUNK_SIZE
    if ret < 0 then some (chip, ret)
    else writeLoop offset buf n (idx + 1) chip ret

/-- `at24c08_packet_write`. -/
def packetWrite (chip : ℕ → UInt8) (offset : ℕ) (buf : List UInt8) (len : ℕ) :
    Option ((ℕ → UInt8) × Option ℤ) := do
  let chunk := divUp len I2C_CHUNK_SIZE
  let remain := len % I2C_CHUNK_SIZE
  let (chip, ret) ← writeLoop offset buf chunk 0 chip none
  if remain ≠ 0 then do
    let (chip, ret) ← pageWrite chip ((offset + chunk * I2C_CHUNK_SIZE) % 256) buf
      (chunk * I2C_CHUNK_SIZE) remain
    some (chip, some ret)
  else some (chip, ret)

end HardStack.Eeprom.Model
