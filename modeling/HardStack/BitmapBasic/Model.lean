import HardStack.Lib.Bitmap

/-! # The bitmaps of `Algorithem/bitmap/Basic`

`bitmap.c` and `bitmap.h`. A word is a bit vector of `W = BITS_PER_LONG` bits, an array a function of
the index. A number of type `unsigned long` is a natural number below `2 ^ W`, one of type `unsigned
int` below `2 ^ 32`; a sum or difference is taken modulo that. A loop takes fuel and gives `none` where
it runs out. -/

namespace HardStack.BitmapBasic.Model

open HardStack.Lib

variable (W : ℕ)

/-- Bit `i` of an array. -/
def bit {W : ℕ} (a : ℕ → BitVec W) (i : ℕ) : Bool := (a (i / W)).getLsbD (i % W)

def BITMAP_FIRST_WORD_MASK (start : ℕ) : BitVec W := BitVec.allOnes W <<< (start &&& (W - 1))

/-- The negation of an `unsigned int`, in the mask. -/
def BITMAP_LAST_WORD_MASK (nbits : ℕ) : BitVec W :=
  BitVec.allOnes W >>> (((2 ^ 32 - nbits) % 2 ^ 32) &&& (W - 1))

/-- `DIV_ROUND_UP(nr, sizeof(long) * BITS_PER_BYTE)`, computed as a `size_t`, for a variable of type
`unsigned int`. -/
def BITS_TO_LONGS (nr : ℕ) : ℕ := ((((nr + W) % 2 ^ W + 2 ^ W - 1) % 2 ^ W) / W) % 2 ^ 32

/-- `__builtin_ctzl`: the least set bit. -/
def ffs {W : ℕ} (word : BitVec W) : ℕ := Bitmap.seek word.getLsbD W 0

/-! ### Searching -/

/-- A word of `addr1`, or of its conjunction with `addr2`, inverted by `invert`. -/
def fetch {W : ℕ} (addr1 : ℕ → BitVec W) (addr2 : Option (ℕ → BitVec W)) (invert : BitVec W)
    (start : ℕ) : BitVec W :=
  let tmp := addr1 (start / W)
  let tmp := addr2.elim tmp fun a => tmp &&& a (start / W)
  tmp ^^^ invert

/-- The loop of `_find_next_bit`. -/
def findNextBitLoop {W : ℕ} (addr1 : ℕ → BitVec W) (addr2 : Option (ℕ → BitVec W)) (nbits : ℕ)
    (invert : BitVec W) : ℕ → (tmp : BitVec W) → (start : ℕ) → Option ℕ
  | 0, _, _ => none
  | n + 1, tmp, start =>
    if tmp = 0 then
      let start := (start + W) % 2 ^ W
      if start ≥ nbits then some nbits
      else findNextBitLoop addr1 addr2 nbits invert n (fetch addr1 addr2 invert start) start
    else some (min ((start + ffs tmp) % 2 ^ W) nbits)

/-- `_find_next_bit`. -/
def findNextBitIn {W : ℕ} (addr1 : ℕ → BitVec W) (addr2 : Option (ℕ → BitVec W)) (nbits start : ℕ)
    (invert : BitVec W) (fuel : ℕ) : Option ℕ :=
  if start ≥ nbits then some nbits
  else
    let tmp := fetch addr1 addr2 invert start &&& BITMAP_FIRST_WORD_MASK W start
    let start := start &&& (2 ^ W - 1 - (W - 1))
    findNextBitLoop addr1 addr2 nbits invert fuel tmp start

def findNextZeroBit {W : ℕ} (addr : ℕ → BitVec W) (size offset fuel : ℕ) : Option ℕ :=
  findNextBitIn addr none size offset (BitVec.allOnes W) fuel

def findNextBit {W : ℕ} (addr : ℕ → BitVec W) (size offset fuel : ℕ) : Option ℕ :=
  findNextBitIn addr none size offset 0 fuel

/-- `__ALIGN_MASK`. -/
def ALIGN_MASK (x mask : ℕ) : ℕ := ((x + mask) % 2 ^ W) &&& (2 ^ W - 1 - mask)

/-- The rounds of `bitmap_find_next_zero_area_off`, from the label `again` on. -/
def zeroAreaLoop {W : ℕ} (map : ℕ → BitVec W) (size nr alignMask alignOffset fuel : ℕ) :
    ℕ → (start : ℕ) → Option ℕ
  | 0, _ => none
  | n + 1, start => do
    let index ← findNextZeroBit map size start fuel
    let index := (ALIGN_MASK W ((index + alignOffset) % 2 ^ W) alignMask + 2 ^ W - alignOffset) % 2 ^ W
    let «end» := (index + nr) % 2 ^ W
    if «end» > size then some «end»
    else do
      let i ← findNextBit map «end» index fuel
      if i < «end» then zeroAreaLoop map size nr alignMask alignOffset fuel n ((i + 1) % 2 ^ W)
      else some index

def bitmapFindNextZeroAreaOff {W : ℕ} (map : ℕ → BitVec W) (size start nr alignMask alignOffset fuel : ℕ) :
    Option ℕ :=
  zeroAreaLoop map size nr alignMask alignOffset fuel fuel start

/-! ### Shifting

Both arrays lie in one memory of words; `dst` and `src` are the positions of their first words. -/

abbrev Memory (W : ℕ) := ℕ → BitVec W

/-- The word that one round of `__bitmap_shift_right` writes. -/
def shiftRightWord {W : ℕ} (mem : Memory W) (src lim off rem : ℕ) (mask : BitVec W) (k : ℕ) : BitVec W :=
  let upper := if rem = 0 ∨ off + k + 1 ≥ lim then 0
    else
      let upper := mem (src + (off + k + 1))
      let upper := if off + k + 1 = lim - 1 then upper &&& mask else upper
      upper <<< (W - rem)
  let lower := mem (src + (off + k))
  let lower := if off + k = lim - 1 then lower &&& mask else lower
  let lower := lower >>> rem
  lower ||| upper

/-- The first `n` rounds of the loop, with `k` from `0` up. -/
def shiftRightLoop {W : ℕ} (mem : Memory W) (dst src lim off rem : ℕ) (mask : BitVec W) : ℕ → Memory W
  | 0 => mem
  | k + 1 =>
    let mem := shiftRightLoop mem dst src lim off rem mask k
    Function.update mem (dst + k) (shiftRightWord mem src lim off rem mask k)

/-- `memset` of `n` words with `0`. -/
def memsetZero {W : ℕ} (mem : Memory W) (p n : ℕ) : Memory W :=
  fun a => if p ≤ a ∧ a < p + n then 0 else mem a

/-- `__bitmap_shift_right`. -/
def bitmapShiftRight {W : ℕ} (mem : Memory W) (dst src shift nbits : ℕ) : Memory W :=
  let lim := BITS_TO_LONGS W nbits
  let off := shift / W
  let rem := shift % W
  let mask := BITMAP_LAST_WORD_MASK W nbits
  let mem := shiftRightLoop mem dst src lim off rem mask (lim - off)
  if off ≠ 0 then memsetZero mem (dst + (lim + 2 ^ 32 - off) % 2 ^ 32) off else mem

/-- The word that one round of `__bitmap_shift_left` writes. -/
def shiftLeftWord {W : ℕ} (mem : Memory W) (src rem k : ℕ) : BitVec W :=
  let lower := if rem ≠ 0 ∧ k > 0 then mem (src + (k - 1)) >>> (W - rem) else 0
  let upper := mem (src + k) <<< rem
  lower ||| upper

/-- The loop of `__bitmap_shift_left`, with `k` from the given number less one down to `0`. -/
def shiftLeftLoop {W : ℕ} (dst src off rem : ℕ) : ℕ → Memory W → Memory W
  | 0, mem => mem
  | k + 1, mem =>
    shiftLeftLoop dst src off rem k (Function.update mem (dst + (k + off)) (shiftLeftWord mem src rem k))

/-- `__bitmap_shift_left`. A negative first `k` gives no round. -/
def bitmapShiftLeft {W : ℕ} (mem : Memory W) (dst src shift nbits : ℕ) : Memory W :=
  let lim := BITS_TO_LONGS W nbits
  let off := shift / W
  let rem := shift % W
  let mem := shiftLeftLoop dst src off rem (lim - off) mem
  if off ≠ 0 then memsetZero mem dst off else mem

/-! ### Arrays of `u32` -/

/-- `DIV_ROUND_UP(nbits, 32)` of an `unsigned int`. -/
def halfwords (nbits : ℕ) : ℕ := ((nbits + 32) % 2 ^ 32 + 2 ^ 32 - 1) % 2 ^ 32 / 32

/-- The loop of `bitmap_from_arr32` from `i` on. -/
def fromArr32Loop (buf : ℕ → BitVec 32) (halfwords i : ℕ) (bitmap : ℕ → BitVec 64) : ℕ → BitVec 64 :=
  if i < halfwords then
    let bitmap := Function.update bitmap (i / 2) ((buf i).setWidth 64)
    let i := i + 1
    let bitmap := if i < halfwords then
        Function.update bitmap (i / 2) (bitmap (i / 2) ||| (buf i).setWidth 64 <<< 32)
      else bitmap
    fromArr32Loop buf halfwords (i + 1) bitmap
  else bitmap
termination_by halfwords - i

/-- `bitmap_from_arr32`, for `BITS_PER_LONG` 64. -/
def bitmapFromArr32 (bitmap : ℕ → BitVec 64) (buf : ℕ → BitVec 32) (nbits : ℕ) : ℕ → BitVec 64 :=
  let halfwords := halfwords nbits
  let bitmap := fromArr32Loop buf halfwords 0 bitmap
  if nbits % 64 ≠ 0 then
    let last := (halfwords + 2 ^ 32 - 1) % 2 ^ 32 / 2
    Function.update bitmap last (bitmap last &&& BITMAP_LAST_WORD_MASK 64 nbits)
  else bitmap

/-- The loop of `bitmap_to_arr32` from `i` on. -/
def toArr32Loop (bitmap : ℕ → BitVec 64) (halfwords i : ℕ) (buf : ℕ → BitVec 32) : ℕ → BitVec 32 :=
  if i < halfwords then
    let buf := Function.update buf i ((bitmap (i / 2) &&& 0xffffffff).setWidth 32)
    let i := i + 1
    let buf := if i < halfwords then Function.update buf i ((bitmap (i / 2) >>> 32).setWidth 32) else buf
    toArr32Loop bitmap halfwords (i + 1) buf
  else buf
termination_by halfwords - i

/-- `bitmap_to_arr32`, for `BITS_PER_LONG` 64. -/
def bitmapToArr32 (buf : ℕ → BitVec 32) (bitmap : ℕ → BitVec 64) (nbits : ℕ) : ℕ → BitVec 32 :=
  let halfwords := halfwords nbits
  let buf := toArr32Loop bitmap halfwords 0 buf
  if nbits % 64 ≠ 0 then
    let last := (halfwords + 2 ^ 32 - 1) % 2 ^ 32
    Function.update buf last (buf last &&& BitVec.allOnes 32 >>> (((2 ^ 32 - nbits) % 2 ^ 32) &&& 31))
  else buf

end HardStack.BitmapBasic.Model
