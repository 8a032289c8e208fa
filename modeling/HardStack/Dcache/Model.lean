import Mathlib

/-! # Name hashing of `fs/vfs/API/dcache_algorithm`

`core.c`, with an `unsigned long` of 32 bits and the lowest byte of a word at the lowest address. The
memory is a function of the address. A loop takes its fuel; `none` is a loop that has not ended. -/

namespace HardStack.Dcache.Model

abbrev Memory := BitVec 32 → BitVec 8

def REPEAT_BYTE (x : BitVec 32) : BitVec 32 := (~~~0#32 / 0xff#32) * x

/-- The fields of `WORD_AT_A_TIME_CONSTANTS`. -/
def one_bits : BitVec 32 := REPEAT_BYTE 0x01#32
def high_bits : BitVec 32 := REPEAT_BYTE 0x80#32

/-- `has_zero`; the mask is also what it stores in `bits`. -/
def hasZero (a : BitVec 32) : BitVec 32 := ((a - one_bits) &&& ~~~a) &&& high_bits

def createZeroMask (bits : BitVec 32) : BitVec 32 := ((bits - 1#32) &&& ~~~bits) >>> 7

/-- `fls`: the place of the last bit that is set, from one on. -/
def fls (x : BitVec 32) : ℕ := Nat.size x.toNat

def findZero (mask : BitVec 32) : BitVec 32 := BitVec.ofNat 32 (fls mask >>> 3)

def rol32 (word : BitVec 32) (shift : ℕ) : BitVec 32 := word.rotateLeft shift

/-- `HASH_MIX`: the new `x` and `y`. -/
def HASH_MIX (x y a : BitVec 32) : BitVec 32 × BitVec 32 :=
  let x := x ^^^ a
  let y := y ^^^ x
  let x := rol32 x 7
  let x := x + y
  let y := rol32 y 20
  let y := y * 9#32
  (x, y)

def GOLDEN_RATIO_32 : BitVec 32 := 0x61C88647#32

/-- `__hash_32`. -/
def hash32 (val : BitVec 32) : BitVec 32 := val * GOLDEN_RATIO_32

def foldHash (x y : BitVec 32) : BitVec 32 := hash32 (y ^^^ hash32 x)

def hashlenCreate (hash len : BitVec 32) : BitVec 64 := len.setWidth 64 <<< 32 ||| hash.setWidth 64

/-- `load_unaligned_zeropad`. -/
def loadUnalignedZeropad (mem : Memory) (addr : BitVec 32) : BitVec 32 :=
  mem (addr + 3#32) ++ mem (addr + 2#32) ++ mem (addr + 1#32) ++ mem addr

/-- The loop of `hash_name` from the label `inside` on, and what comes after it. -/
def hashLoop (mem : Memory) (name : BitVec 32) :
    ℕ → BitVec 32 → BitVec 32 → BitVec 32 → Option (BitVec 64)
  | 0, _, _, _ => none
  | fuel + 1, x, y, len =>
    let a := loadUnalignedZeropad mem (name + len)
    let b := a ^^^ REPEAT_BYTE 0x2f#32
    let adata := hasZero a
    let bdata := hasZero b
    if adata ||| bdata = 0#32 then
      let (x, y) := HASH_MIX x y a
      hashLoop mem name fuel x y (len + 4#32)
    else
      let mask := createZeroMask (adata ||| bdata)
      let x := x ^^^ (a &&& mask)
      some (hashlenCreate (foldHash x y) (len + findZero mask))

/-- `hash_name`. -/
def hashName (mem : Memory) (fuel : ℕ) (salt name : BitVec 32) : Option (BitVec 64) :=
  hashLoop mem name fuel 0#32 salt 0#32

end HardStack.Dcache.Model
