import HardStack.BitmapBasic.Shift

/-! # Bitmaps and arrays of `u32`

Both loops take the half words two by two, and both functions clear the bits past the end in the last
element that they write. Bit by bit each of them copies the bits below `nbits`. The number of half words
is rounded up in 32 bits: for the largest numbers of bits it is 0. -/

namespace HardStack.BitmapBasic.Arr32

open HardStack.BitmapBasic.Model
open HardStack.BitmapBasic.Search (getLsbD_low)
open HardStack.BitmapBasic.Shift (words lastWordMask_getLsbD)

variable {buf : ℕ → BitVec 32} {bitmap : ℕ → BitVec 64} {nbits h i j k : ℕ}

/-! ### The loops -/

/-- The word that is put together from two elements. -/
def pairWord (buf : ℕ → BitVec 32) (h k : ℕ) : BitVec 64 :=
  (buf (2 * k)).setWidth 64 ||| (if 2 * k + 1 < h then (buf (2 * k + 1)).setWidth 64 <<< 32 else 0)

/-- The half of a word. -/
def half (bitmap : ℕ → BitVec 64) (j : ℕ) : BitVec 32 := (bitmap (j / 2) >>> (32 * (j % 2))).setWidth 32

theorem fromArr32Loop_spec (buf : ℕ → BitVec 32) (h i : ℕ) (bitmap : ℕ → BitVec 64) (hi : i % 2 = 0) (k : ℕ) :
    fromArr32Loop buf h i bitmap k = if i ≤ 2 * k ∧ 2 * k < h then pairWord buf h k else bitmap k := by
  have hdiv : i / 2 = (i + 1) / 2 := by omega
  rw [fromArr32Loop]
  by_cases hlt : i < h
  · rw [if_pos hlt, fromArr32Loop_spec buf h (i + 1 + 1) _ (by omega) k, ← hdiv]
    by_cases hk : k = i / 2
    · -- the word of this round
      have hki : 2 * k = i := by omega
      rw [if_neg (show ¬ (i + 1 + 1 ≤ 2 * k ∧ 2 * k < h) by omega),
        if_pos (show i ≤ 2 * k ∧ 2 * k < h by omega), ← hk]
      unfold pairWord
      rw [hki]
      by_cases hlast : i + 1 < h
      · rw [if_pos hlast, if_pos hlast, Function.update_self, Function.update_self]
      · rw [if_neg hlast, if_neg hlast, Function.update_self]
        exact BitVec.or_zero.symm
    · have hkeep : ∀ (f : ℕ → BitVec 64) (v : BitVec 64), Function.update f (i / 2) v k = f k :=
        fun f v => Function.update_of_ne hk v f
      by_cases hrest : i + 1 + 1 ≤ 2 * k ∧ 2 * k < h
      · rw [if_pos hrest, if_pos (by omega)]
      · rw [if_neg hrest, if_neg (show ¬ (i ≤ 2 * k ∧ 2 * k < h) by omega)]
        by_cases hlast : i + 1 < h
        · rw [if_pos hlast, hkeep, hkeep]
        · rw [if_neg hlast, hkeep]
  · rw [if_neg hlt, if_neg (by omega)]
termination_by h - i

theorem toArr32Loop_spec (bitmap : ℕ → BitVec 64) (h i : ℕ) (buf : ℕ → BitVec 32) (hi : i % 2 = 0) (j : ℕ) :
    toArr32Loop bitmap h i buf j = if i ≤ j ∧ j < h then half bitmap j else buf j := by
  have hdiv : (i + 1) / 2 = i / 2 := by omega
  have hlow : (bitmap (i / 2) &&& 0xffffffff).setWidth 32 = half bitmap i := by
    unfold half
    rw [hi]
    refine BitVec.eq_of_getLsbD_eq fun l hl => ?_
    rw [BitVec.getLsbD_setWidth, BitVec.getLsbD_setWidth, BitVec.getLsbD_and, getLsbD_low, decide_eq_true hl,
      Bool.and_true]
    rfl
  have hhigh : (bitmap ((i + 1) / 2) >>> 32).setWidth 32 = half bitmap (i + 1) := by
    unfold half
    rw [show (i + 1) % 2 = 1 by omega]
  rw [toArr32Loop]
  by_cases hlt : i < h
  · rw [if_pos hlt, toArr32Loop_spec bitmap h (i + 1 + 1) _ (by omega) j, hlow, hhigh]
    by_cases hrest : i + 1 + 1 ≤ j ∧ j < h
    · rw [if_pos hrest, if_pos (by omega)]
    · rw [if_neg hrest]
      by_cases hlast : i + 1 < h
      · rw [if_pos hlast]
        by_cases hj : j = i + 1
        · rw [hj, Function.update_self, if_pos (by omega)]
        · rw [Function.update_of_ne hj]
          by_cases hj' : j = i
          · rw [hj', Function.update_self, if_pos (by omega)]
          · rw [Function.update_of_ne hj', if_neg (by omega)]
      · rw [if_neg hlast]
        by_cases hj' : j = i
        · rw [hj', Function.update_self, if_pos (by omega)]
        · rw [Function.update_of_ne hj', if_neg (by omega)]
  · rw [if_neg hlt, if_neg (by omega)]
termination_by h - i

/-! ### Bits -/

theorem pairWord_getLsbD {l : ℕ} (hl : l < 64) (hk : 2 * k < h) :
    (pairWord buf h k).getLsbD l = (decide (64 * k + l < 32 * h) && bit buf (64 * k + l)) := by
  unfold pairWord bit
  rw [BitVec.getLsbD_or, BitVec.getLsbD_setWidth]
  by_cases hlow : l < 32
  · have hup : (if 2 * k + 1 < h then (buf (2 * k + 1)).setWidth 64 <<< 32 else (0 : BitVec 64)).getLsbD l
        = false := by
      split_ifs
      · simp [hlow]
      · simp
    rw [hup, Bool.or_false, decide_eq_true hl, decide_eq_true (by omega), Bool.true_and, Bool.true_and,
      show (64 * k + l) / 32 = 2 * k by omega, show (64 * k + l) % 32 = l by omega]
  · rw [BitVec.getLsbD_of_ge _ _ (not_lt.mp hlow), Bool.and_false, Bool.false_or,
      show (64 * k + l) / 32 = 2 * k + 1 by omega, show (64 * k + l) % 32 = l - 32 by omega]
    by_cases hnext : 2 * k + 1 < h
    · rw [if_pos hnext, decide_eq_true (by omega), Bool.true_and]
      simp [hl, hlow]
    · rw [if_neg hnext, decide_eq_false (by omega), Bool.false_and]
      simp

theorem half_getLsbD {l : ℕ} (hl : l < 32) : (half bitmap j).getLsbD l = bit bitmap (32 * j + l) := by
  unfold half bit
  rw [BitVec.getLsbD_setWidth, decide_eq_true hl, Bool.true_and, BitVec.getLsbD_ushiftRight,
    show (32 * j + l) / 64 = j / 2 by omega, show (32 * j + l) % 64 = 32 * (j % 2) + l by omega]

/-! ### The functions -/

theorem halfwords_eq (hpos : 0 < nbits) (h : nbits + 32 ≤ 2 ^ 32) : halfwords nbits = (nbits + 31) / 32 := by
  unfold halfwords
  omega

theorem halfwords_wrap (h32 : nbits < 2 ^ 32) (h : 2 ^ 32 < nbits + 32) : halfwords nbits = 0 := by
  unfold halfwords
  omega

/-- The bits of the bitmap that `bitmap_from_arr32` writes. -/
theorem fromArr32_bit (hpos : 0 < nbits) (h : nbits + 32 ≤ 2 ^ 32) (hi : i < 64 * words 64 nbits) :
    bit (bitmapFromArr32 bitmap buf nbits) i = (decide (i < nbits) && bit buf i) := by
  unfold words at hi
  have hmod := Nat.mod_lt i (show 0 < 64 by decide)
  have hloop : fromArr32Loop buf (halfwords nbits) 0 bitmap (i / 64) = pairWord buf (halfwords nbits) (i / 64) := by
    rw [fromArr32Loop_spec buf _ 0 bitmap rfl, halfwords_eq hpos h, if_pos (by omega)]
  have hpair : (pairWord buf (halfwords nbits) (i / 64)).getLsbD (i % 64) =
      (decide (i < 32 * halfwords nbits) && bit buf i) := by
    rw [pairWord_getLsbD hmod (by rw [halfwords_eq hpos h]; omega), Nat.div_add_mod]
  rw [halfwords_eq hpos h] at hpair
  unfold bitmapFromArr32 bit
  dsimp only
  by_cases htail : nbits % 64 ≠ 0
  · have hlast : (halfwords nbits + 2 ^ 32 - 1) % 2 ^ 32 / 2 = (nbits - 1) / 64 := by
      rw [halfwords_eq hpos h]
      omega
    rw [if_pos htail, hlast]
    by_cases hword : i / 64 = (nbits - 1) / 64
    · -- the last word
      rw [hword, Function.update_self, ← hword, BitVec.getLsbD_and, hloop, halfwords_eq hpos h, hpair,
        lastWordMask_getLsbD (Or.inr rfl) hpos (by omega) hmod, Bool.and_right_comm, ← Bool.decide_and]
      congr 1
      rw [decide_eq_decide]
      omega
    · rw [Function.update_of_ne hword, hloop, halfwords_eq hpos h, hpair]
      congr 1
      rw [decide_eq_decide]
      omega
  · rw [if_neg htail, hloop, halfwords_eq hpos h, hpair]
    congr 1
    rw [decide_eq_decide]
    omega

/-- `bitmap_from_arr32` writes no word past the bitmap. -/
theorem fromArr32_frame (hpos : 0 < nbits) (h : nbits + 32 ≤ 2 ^ 32) (hk : words 64 nbits ≤ k) :
    bitmapFromArr32 bitmap buf nbits k = bitmap k := by
  unfold words at hk
  have hloop : fromArr32Loop buf (halfwords nbits) 0 bitmap k = bitmap k := by
    rw [fromArr32Loop_spec buf _ 0 bitmap rfl, halfwords_eq hpos h, if_neg (by omega)]
  unfold bitmapFromArr32
  dsimp only
  by_cases htail : nbits % 64 ≠ 0
  · rw [if_pos htail, halfwords_eq hpos h, Function.update_of_ne (by omega), ← halfwords_eq hpos h, hloop]
  · rw [if_neg htail, hloop]

/-- The bits of the array that `bitmap_to_arr32` writes. -/
theorem toArr32_bit (hpos : 0 < nbits) (h : nbits + 32 ≤ 2 ^ 32) (hi : i < 32 * ((nbits + 31) / 32)) :
    bit (bitmapToArr32 buf bitmap nbits) i = (decide (i < nbits) && bit bitmap i) := by
  have hmod := Nat.mod_lt i (show 0 < 32 by decide)
  have hloop : toArr32Loop bitmap (halfwords nbits) 0 buf (i / 32) = half bitmap (i / 32) := by
    rw [toArr32Loop_spec bitmap _ 0 buf rfl, halfwords_eq hpos h, if_pos (by omega)]
  have hhalf : (half bitmap (i / 32)).getLsbD (i % 32) = bit bitmap i := by
    rw [half_getLsbD hmod, Nat.div_add_mod]
  unfold bitmapToArr32
  rw [bit]
  dsimp only
  by_cases htail : nbits % 64 ≠ 0
  · have hlast : (halfwords nbits + 2 ^ 32 - 1) % 2 ^ 32 = (nbits - 1) / 32 := by
      rw [halfwords_eq hpos h]
      omega
    have hand : ∀ x : ℕ, x &&& 31 = x % 32 := fun x => Nat.and_two_pow_sub_one_eq_mod x 5
    have hmask : (2 ^ 32 - nbits) % 2 ^ 32 &&& 31 = 31 - (nbits - 1) % 32 := (hand _).trans (by omega)
    rw [if_pos htail, hlast, hmask]
    by_cases hword : i / 32 = (nbits - 1) / 32
    · -- the last element
      rw [hword, Function.update_self, ← hword, BitVec.getLsbD_and, hloop, hhalf, Bool.and_comm,
        BitVec.getLsbD_ushiftRight, BitVec.getLsbD_allOnes]
      refine congrArg (· && bit bitmap i) (decide_eq_decide.mpr ?_)
      omega
    · rw [Function.update_of_ne hword, hloop, hhalf, decide_eq_true (by omega), Bool.true_and]
  · rw [if_neg htail, hloop, hhalf, decide_eq_true (by omega), Bool.true_and]

/-- `bitmap_to_arr32` writes no element past the array. -/
theorem toArr32_frame (hpos : 0 < nbits) (h : nbits + 32 ≤ 2 ^ 32) (hj : (nbits + 31) / 32 ≤ j) :
    bitmapToArr32 buf bitmap nbits j = buf j := by
  have hloop : toArr32Loop bitmap (halfwords nbits) 0 buf j = buf j := by
    rw [toArr32Loop_spec bitmap _ 0 buf rfl, halfwords_eq hpos h, if_neg (by omega)]
  unfold bitmapToArr32
  dsimp only
  by_cases htail : nbits % 64 ≠ 0
  · rw [if_pos htail, Function.update_of_ne (by rw [halfwords_eq hpos h]; omega), hloop]
  · rw [if_neg htail, hloop]

/-! ### The round trips -/

/-- The `n` words of `b` are those of `a`, with the bits from `nbits` on cleared. -/
def Cleared {W : ℕ} (a b : ℕ → BitVec W) (nbits n : ℕ) : Prop :=
  ∀ i < W * n, bit b i = (decide (i < nbits) && bit a i)

/-- The conversions there and back, and what they leave as it is. -/
structure RoundTrips (nbits : ℕ) : Prop where
  bitmap : ∀ bitmap buf dst, Cleared bitmap (bitmapFromArr32 dst (bitmapToArr32 buf bitmap nbits) nbits) nbits
    (BITS_TO_LONGS 64 nbits)
  array : ∀ buf bitmap dst, Cleared buf (bitmapToArr32 dst (bitmapFromArr32 bitmap buf nbits) nbits) nbits
    ((nbits + 31) / 32)
  words : ∀ bitmap buf, ∀ k ≥ BITS_TO_LONGS 64 nbits, bitmapFromArr32 bitmap buf nbits k = bitmap k
  elements : ∀ buf bitmap, ∀ j ≥ (nbits + 31) / 32, bitmapToArr32 buf bitmap nbits j = buf j

theorem longs_eq (hpos : 0 < nbits) (h32 : nbits < 2 ^ 32) : BITS_TO_LONGS 64 nbits = words 64 nbits :=
  Shift.BITS_TO_LONGS_eq (Or.inr rfl) hpos h32 (by omega)

theorem roundTrips (hpos : 0 < nbits) (h : nbits + 32 ≤ 2 ^ 32) : RoundTrips nbits where
  bitmap bitmap buf dst i hi := by
    rw [longs_eq hpos (by omega)] at hi
    rw [fromArr32_bit hpos h hi]
    by_cases hlt : i < nbits
    · rw [toArr32_bit hpos h (by omega), decide_eq_true hlt, Bool.true_and]
    · rw [decide_eq_false hlt, Bool.false_and, Bool.false_and]
  array buf bitmap dst i hi := by
    rw [toArr32_bit hpos h hi]
    by_cases hlt : i < nbits
    · rw [fromArr32_bit hpos h (by unfold words; omega), decide_eq_true hlt, Bool.true_and]
    · rw [decide_eq_false hlt, Bool.false_and, Bool.false_and]
  words bitmap buf k hk := fromArr32_frame hpos h (by rwa [longs_eq hpos (by omega)] at hk)
  elements buf bitmap j hj := toArr32_frame hpos h hj

/-- Where the number of half words wraps to 0, nothing is copied. -/
theorem not_roundTrips (h32 : nbits < 2 ^ 32) (h : 2 ^ 32 < nbits + 32) : ¬ RoundTrips nbits := by
  intro hall
  have hbit := hall.array (fun _ => 1) (fun _ => 0) (fun _ => 0) 0 (by omega)
  have hzero : bitmapToArr32 (fun _ => 0) (bitmapFromArr32 (fun _ => 0) (fun _ => 1) nbits) nbits 0 = 0 := by
    have hloop : ∀ bitmap, toArr32Loop bitmap (halfwords nbits) 0 (fun _ => 0) 0 = 0 := by
      intro bitmap
      rw [toArr32Loop_spec bitmap _ 0 _ rfl, halfwords_wrap h32 h, if_neg (by omega)]
    unfold bitmapToArr32
    dsimp only
    split_ifs
    · rw [Function.update_of_ne (by rw [halfwords_wrap h32 h]; decide), hloop]
    · rw [hloop]
  unfold bit at hbit
  rw [Nat.zero_div, hzero, decide_eq_true (by omega)] at hbit
  exact absurd hbit (by decide)

/-- **The conversions** between a bitmap and an array of `u32` are inverse to each other, unless the
number of half words wraps. -/
theorem roundTrips_iff (hpos : 0 < nbits) (h32 : nbits < 2 ^ 32) : RoundTrips nbits ↔ nbits + 32 ≤ 2 ^ 32 := by
  refine ⟨fun h => ?_, roundTrips hpos⟩
  by_contra hlt
  exact not_roundTrips h32 (not_le.mp hlt) h

/-- Three half words. -/
theorem roundTrips_iff_seventy : RoundTrips 70 ↔ 70 + 32 ≤ 2 ^ 32 := roundTrips_iff (by decide) (by decide)

theorem not_roundTrips_max : ¬ RoundTrips (2 ^ 32 - 1) := not_roundTrips (by decide) (by decide)

end HardStack.BitmapBasic.Arr32
