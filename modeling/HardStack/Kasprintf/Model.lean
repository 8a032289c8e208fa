import Mathlib

/-! # Numbers as text: `Memory-Allocator/slab/slub_userspace/mm/kasprintf.c`

`put_dec` with its table and `number`. The machine is a little-endian one, as `cpu_to_le16` has it. To
write outside of the temporary `tmp` of `number`, or to read outside of a table, has no result. An `int`
is an integer: widths have 24 bits and precisions 16, so that none overflows. -/

namespace HardStack.Kasprintf.Model

def SIGN : BitVec 8 := 1
def LEFT : BitVec 8 := 2
def PLUS : BitVec 8 := 4
def SPACE : BitVec 8 := 8
def ZEROPAD : BitVec 8 := 16
def SMALL : BitVec 8 := 32
def SPECIAL : BitVec 8 := 64

/-- `struct printf_spec`, what `number` reads of it. -/
structure PrintfSpec where
  fieldWidth : ℤ
  flags : BitVec 8
  base : ℕ
  precision : ℤ
  deriving DecidableEq

/-! ### Decimal digits -/

/-- `cpu_to_le16`. -/
def cpuToLe16 (x : BitVec 16) : BitVec 16 := x

/-- The table `decpair`. -/
def decpair (x : BitVec 32) : Option (BitVec 16) :=
  if x.toNat < 100 then
    some (cpuToLe16 (((x % 10) ||| ((x / 10) <<< 8)).setWidth 16 + 0x3030))
  else none

/-- The bytes of `tmp`. -/
abbrev Tmp := ℕ → BitVec 8

def TMP_SIZE : ℕ := 3 * 8

/-- `tmp[i] = c`. -/
def Tmp.write (tmp : Tmp) (i : ℕ) (c : BitVec 8) : Option Tmp :=
  if i < TMP_SIZE then some (Function.update tmp i c) else none

/-- `*((u16 *)buf) = w`. -/
def Tmp.write16 (tmp : Tmp) (buf : ℕ) (w : BitVec 16) : Option Tmp := do
  let tmp ← Tmp.write tmp buf (w.setWidth 8)
  Tmp.write tmp (buf + 1) ((w >>> 8).setWidth 8)

/-- A pair of digits from the table. -/
def putPair (tmp : Tmp) (buf : ℕ) (x : BitVec 32) : Option Tmp := do
  let w ← decpair x
  Tmp.write16 tmp buf w

/-- `(r * (u64)0x28f5c29) >> 32`. -/
def div100 (r : BitVec 32) : BitVec 32 := ((r.setWidth 64 * 0x28f5c29) >>> 32).setWidth 32

/-- `(r * 0x147b) >> 19`. -/
def div100Short (r : BitVec 32) : BitVec 32 := (r * 0x147b) >>> 19

/-- The label `out_r` of `put_dec_trunc8`. -/
def putDecOut (tmp : Tmp) (buf : ℕ) (r : BitVec 32) : Option (Tmp × ℕ) := do
  let tmp ← putPair tmp buf r
  some (tmp, buf + if r.toNat < 10 then 1 else 2)

def putDecTrunc8 (tmp : Tmp) (buf : ℕ) (r : BitVec 32) : Option (Tmp × ℕ) :=
  if r.toNat < 100 then putDecOut tmp buf r
  else do
    let q := div100 r
    let tmp ← putPair tmp buf (r - 100 * q)
    let buf := buf + 2
    if q.toNat < 100 then putDecOut tmp buf q
    else do
      let r := div100 q
      let tmp ← putPair tmp buf (q - 100 * r)
      let buf := buf + 2
      if r.toNat < 100 then putDecOut tmp buf r
      else do
        let q := div100Short r
        let tmp ← putPair tmp buf (r - 100 * q)
        let buf := buf + 2
        putDecOut tmp buf q

def putDecFull8 (tmp : Tmp) (buf : ℕ) (r : BitVec 32) : Option (Tmp × ℕ) := do
  let q := div100 r
  let tmp ← putPair tmp buf (r - 100 * q)
  let buf := buf + 2
  let r := div100 q
  let tmp ← putPair tmp buf (q - 100 * r)
  let buf := buf + 2
  let q := div100Short r
  let tmp ← putPair tmp buf (r - 100 * q)
  let buf := buf + 2
  let tmp ← putPair tmp buf q
  some (tmp, buf + 2)

/-- The macro `do_div`: the quotient, and the remainder. -/
def doDiv (n : BitVec 64) (base : BitVec 32) : BitVec 64 × BitVec 32 :=
  (n / base.setWidth 64, (n % base.setWidth 64).setWidth 32)

/-- Eight digits, if there are more. -/
def putDecStep (tmp : Tmp) (buf : ℕ) (n : BitVec 64) : Option (Tmp × ℕ × BitVec 64) :=
  if 100 * 1000 * 1000 ≤ n.toNat then do
    let (n, rem) := doDiv n (100 * 1000 * 1000)
    let (tmp, buf) ← putDecFull8 tmp buf rem
    some (tmp, buf, n)
  else some (tmp, buf, n)

def putDec (tmp : Tmp) (buf : ℕ) (n : BitVec 64) : Option (Tmp × ℕ) := do
  let (tmp, buf, n) ← putDecStep tmp buf n
  let (tmp, buf, n) ← putDecStep tmp buf n
  putDecTrunc8 tmp buf (n.setWidth 32)

/-! ### Digits of `number` -/

/-- `hex_asc_upper`. -/
def hexAscUpper (i : ℕ) : Option (BitVec 8) :=
  [0x30, 0x31, 0x32, 0x33, 0x34, 0x35, 0x36, 0x37, 0x38, 0x39, 0x41, 0x42, 0x43, 0x44, 0x45, 0x46][i]?

/-- The `do` loop of `number` for the bases 8 and 16. -/
def shiftLoop (mask : BitVec 8) (shift : ℕ) (locase : BitVec 8) (hshift : 0 < shift) (tmp : Tmp) (i : ℕ)
    (num : BitVec 64) : Option (Tmp × ℕ) := do
  let c ← hexAscUpper (num.setWidth 8 &&& mask).toNat
  let tmp ← Tmp.write tmp i (c ||| locase)
  let next := num >>> shift
  if next ≠ 0 then shiftLoop mask shift locase hshift tmp (i + 1) next else some (tmp, i + 1)
termination_by num.toNat
decreasing_by
  rw [BitVec.toNat_ushiftRight, Nat.shiftRight_eq_div_pow]
  have hnum : 0 < num.toNat := by
    by_contra h
    have hzero : num = 0 := BitVec.eq_of_toNat_eq (by rw [Nat.le_zero.mp (Nat.not_lt.mp h)]; rfl)
    simp [next, hzero] at *
  exact Nat.div_lt_self hnum (Nat.one_lt_two_pow hshift.ne')

/-- The digits in `tmp`, least significant first, and how many there are. -/
def numberDigits (num : BitVec 64) (base : ℕ) (locase : BitVec 8) : Option (Tmp × ℕ) :=
  let tmp : Tmp := fun _ => 0
  if num.toNat < base then do
    let c ← hexAscUpper num.toNat
    let tmp ← Tmp.write tmp 0 (c ||| locase)
    some (tmp, 1)
  else if base ≠ 10 then
    let mask := BitVec.ofNat 8 (base - 1)
    if base = 16 then shiftLoop mask 4 locase (by decide) tmp 0 num
    else shiftLoop mask 3 locase (by decide) tmp 0 num
  else putDec tmp 0 num

/-! ### Output -/

/-- The memory, and `buf`. -/
structure Out where
  mem : ℕ → BitVec 8
  buf : ℕ

/-- `if (buf < end) *buf = c; ++buf;` -/
def emit (stop : ℕ) (c : BitVec 8) (s : Out) : Out where
  mem := if s.buf < stop then Function.update s.mem s.buf c else s.mem
  buf := s.buf + 1

/-- `while (--field_width >= 0)`: the width after it, and the output. -/
def widthLoop (stop : ℕ) (c : BitVec 8) (fieldWidth : ℤ) (s : Out) : ℤ × Out :=
  if 0 ≤ fieldWidth - 1 then widthLoop stop c (fieldWidth - 1) (emit stop c s) else (fieldWidth - 1, s)
termination_by fieldWidth.toNat
decreasing_by omega

/-- `while (i <= --precision)`. -/
def precisionLoop (stop : ℕ) (i precision : ℤ) (s : Out) : Out :=
  if i ≤ precision - 1 then precisionLoop stop i (precision - 1) (emit stop 0x30 s) else s
termination_by (precision - i).toNat
decreasing_by omega

/-- `while (--i >= 0)`. -/
def digitsLoop (stop : ℕ) (tmp : Tmp) : ℕ → Out → Out
  | 0, s => s
  | i + 1, s => digitsLoop stop tmp i (emit stop (tmp i) s)

/-- The sign, and what it makes of the number and the field width. -/
def numberSign (num : BitVec 64) (flags : BitVec 8) (fieldWidth : ℤ) : BitVec 8 × BitVec 64 × ℤ :=
  if flags &&& SIGN ≠ 0 then
    if num.toInt < 0 then (0x2d, -num, fieldWidth - 1)
    else if flags &&& PLUS ≠ 0 then (0x2b, num, fieldWidth - 1)
    else if flags &&& SPACE ≠ 0 then (0x20, num, fieldWidth - 1)
    else (0, num, fieldWidth)
  else (0, num, fieldWidth)

/-- The prefix `0x` or `0`. -/
def emitPrefix (stop base : ℕ) (isZero : Bool) (locase : BitVec 8) (s : Out) : Out :=
  let s := if base = 16 ∨ ¬ isZero then emit stop 0x30 s else s
  if base = 16 then emit stop (0x58 ||| locase) s else s

/-- `LEFT` takes `ZEROPAD` away. -/
def leftFlags (flags : BitVec 8) : BitVec 8 := if flags &&& LEFT ≠ 0 then flags &&& ~~~ZEROPAD else flags

/-- What the prefix takes of the field width. -/
def prefixWidth (needPfx : Bool) (base : ℕ) (isZero : Bool) (fieldWidth : ℤ) : ℤ :=
  if needPfx then
    if base = 16 then fieldWidth - 2 else if ¬ isZero then fieldWidth - 1 else fieldWidth
  else fieldWidth

/-- `number` from its first padding loop on. -/
def numberOut (stop : ℕ) (flags : BitVec 8) (base : ℕ) (needPfx isZero : Bool) (locase sign : BitVec 8)
    (tmp : Tmp) (i : ℕ) (precision fieldWidth : ℤ) (s : Out) : Out :=
  let (fieldWidth, s) :=
    if flags &&& (ZEROPAD ||| LEFT) = 0 then widthLoop stop 0x20 fieldWidth s else (fieldWidth, s)
  let s := if sign ≠ 0 then emit stop sign s else s
  let s := if needPfx then emitPrefix stop base isZero locase s else s
  let (fieldWidth, s) :=
    if flags &&& LEFT = 0 then widthLoop stop (0x20 + (flags &&& ZEROPAD)) fieldWidth s
    else (fieldWidth, s)
  let s := precisionLoop stop i precision s
  let s := digitsLoop stop tmp i s
  (widthLoop stop 0x20 fieldWidth s).2

/-- `number`. A negation wraps. -/
def number (stop : ℕ) (num : BitVec 64) (spec : PrintfSpec) (s : Out) : Option Out := do
  let needPfx : Bool := spec.flags &&& SPECIAL ≠ 0 ∧ spec.base ≠ 10
  let isZero : Bool := num = 0
  let locase := spec.flags &&& SMALL
  let flags := leftFlags spec.flags
  let (sign, num, fieldWidth) := numberSign num flags spec.fieldWidth
  let fieldWidth := prefixWidth needPfx spec.base isZero fieldWidth
  let (tmp, i) ← numberDigits num spec.base locase
  let precision := if i > spec.precision then (i : ℤ) else spec.precision
  some (numberOut stop flags spec.base needPfx isZero locase sign tmp i precision (fieldWidth - precision) s)

end HardStack.Kasprintf.Model
