import HardStack.BitmapBasic.Search

/-! # Shifting a bitmap

Every word of the result is put together from two neighbours of the source. The loops run in the
direction in which the words still to be read are not yet written, so that the arrays may be one. The
only limit is the rounding of the number of bits up to words, which wraps around on 32 bits. -/

namespace HardStack.BitmapBasic.Shift

open HardStack.BitmapBasic.Model HardStack.BitmapBasic.Search

variable {W : ℕ} {mem : Memory W} {dst src shift nbits lim off rem k : ℕ} {mask : BitVec W}

/-- The array at a position. -/
def arrayAt (mem : Memory W) (p : ℕ) : ℕ → BitVec W := fun k => mem (p + k)

/-- The number of words of a bitmap. -/
def words (W nbits : ℕ) : ℕ := (nbits - 1) / W + 1

/-- The two arrays of a number of words are one, or apart. -/
def Apart (lim dst src : ℕ) : Prop := dst = src ∨ dst + lim ≤ src ∨ src + lim ≤ dst

theorem BITS_TO_LONGS_eq (hW : W = 32 ∨ W = 64) (hpos : 0 < nbits) (h32 : nbits < 2 ^ 32)
    (h : nbits + W ≤ 2 ^ W) : BITS_TO_LONGS W nbits = words W nbits := by
  have hsum : ((nbits + W) % 2 ^ W + 2 ^ W - 1) % 2 ^ W = nbits - 1 + W := by
    rcases Nat.eq_or_lt_of_le h with heq | hlt
    · rw [heq, Nat.mod_self, Nat.mod_eq_of_lt (by omega)]
      omega
    · rw [Nat.mod_eq_of_lt hlt, show nbits + W + 2 ^ W - 1 = nbits - 1 + W + 2 ^ W by omega,
        Nat.add_mod_right, Nat.mod_eq_of_lt (by omega)]
  have hle := Nat.div_le_self (nbits - 1) W
  unfold BITS_TO_LONGS words
  rw [hsum, Nat.add_div_right _ (by omega)]
  rcases hW with rfl | rfl <;> omega

theorem BITS_TO_LONGS_wrap (hW : W = 32 ∨ W = 64) (h32 : nbits < 2 ^ 32) (h : 2 ^ W < nbits + W) :
    BITS_TO_LONGS W nbits = 0 := by
  unfold BITS_TO_LONGS
  rcases hW with rfl | rfl <;> omega

theorem lastWordMask_getLsbD (hW : W = 32 ∨ W = 64) (hpos : 0 < nbits) (h32 : nbits < 2 ^ 32) {j : ℕ}
    (hj : j < W) : (BITMAP_LAST_WORD_MASK W nbits).getLsbD j = decide (j ≤ (nbits - 1) % W) := by
  have hle : (2 ^ 32 - nbits) % 2 ^ 32 % W + j < W ↔ j ≤ (nbits - 1) % W := by
    rcases hW with rfl | rfl <;> omega
  unfold BITMAP_LAST_WORD_MASK
  rw [and_pred hW, BitVec.getLsbD_ushiftRight, BitVec.getLsbD_allOnes, decide_eq_decide]
  exact hle

/-! ### One word -/

/-- The bits of the source, with the ones from `nbits` on cleared. -/
def clean (mem : Memory W) (src nbits x : ℕ) : Bool := decide (x < nbits) && bit (arrayAt mem src) x

theorem bit_arrayAt (mem : Memory W) (p q : ℕ) {j : ℕ} (hj : j < W) :
    bit (arrayAt mem p) (q * W + j) = (mem (p + q)).getLsbD j := by
  have hW : 0 < W := by omega
  unfold bit arrayAt
  rw [Nat.mul_comm, Nat.mul_add_mod, Nat.mod_eq_of_lt hj, Nat.mul_add_div hW, Nat.div_eq_of_lt hj,
    add_zero]

/-- The mask for the last word clears the bits from `nbits` on. -/
theorem masked_getLsbD (hW : W = 32 ∨ W = 64) (hpos : 0 < nbits) (h32 : nbits < 2 ^ 32) {q j : ℕ}
    (hq : q < words W nbits) (hj : j < W) :
    (if q = words W nbits - 1 then mem (src + q) &&& BITMAP_LAST_WORD_MASK W nbits
      else mem (src + q)).getLsbD j = clean mem src nbits (q * W + j) := by
  have hdiv := Nat.div_add_mod (nbits - 1) W
  have hmod := Nat.mod_lt (nbits - 1) (show 0 < W by omega)
  unfold clean
  rw [bit_arrayAt mem src q hj]
  unfold words at hq ⊢
  by_cases hlast : q = (nbits - 1) / W + 1 - 1
  · have hlt : j ≤ (nbits - 1) % W ↔ q * W + j < nbits := by
      rw [hlast, Nat.add_sub_cancel, Nat.mul_comm]
      omega
    rw [if_pos hlast, BitVec.getLsbD_and, lastWordMask_getLsbD hW hpos h32 hj, Bool.and_comm]
    congr 1
    rw [decide_eq_decide]
    exact hlt
  · have hmul : (q + 1) * W ≤ (nbits - 1) / W * W := Nat.mul_le_mul_right W (by omega)
    rw [Nat.succ_mul, Nat.mul_comm (_ / _)] at hmul
    rw [if_neg hlast, decide_eq_true (by omega), Bool.true_and]

/-- No bit lies beyond the words. -/
theorem le_words_mul (hW : 0 < W) : nbits ≤ words W nbits * W := by
  have hdiv := Nat.div_add_mod (nbits - 1) W
  have hmod := Nat.mod_lt (nbits - 1) hW
  unfold words
  rw [Nat.succ_mul, Nat.mul_comm]
  omega

/-- **A word of the shift to the right.** -/
theorem shiftRightWord_getLsbD (hW : W = 32 ∨ W = 64) (hpos : 0 < nbits) (h32 : nbits < 2 ^ 32)
    (hrem : rem < W) (hk : off + k < words W nbits) {j : ℕ} (hj : j < W) :
    (shiftRightWord mem src (words W nbits) off rem (BITMAP_LAST_WORD_MASK W nbits) k).getLsbD j =
      clean mem src nbits ((off + k) * W + (rem + j)) := by
  have hmul : (off + k + 1) * W = (off + k) * W + W := Nat.succ_mul _ _
  have hend := @le_words_mul W nbits (by omega)
  unfold shiftRightWord
  dsimp only
  rw [BitVec.getLsbD_or, BitVec.getLsbD_ushiftRight]
  rcases Nat.lt_or_ge (rem + j) W with hlow | hhigh
  · -- the bit comes from the lower word
    rw [masked_getLsbD hW hpos h32 hk hlow]
    have hup : (if rem = 0 ∨ off + k + 1 ≥ words W nbits then (0 : BitVec W) else
        (if off + k + 1 = words W nbits - 1 then
          mem (src + (off + k + 1)) &&& BITMAP_LAST_WORD_MASK W nbits
        else mem (src + (off + k + 1))) <<< (W - rem)).getLsbD j = false := by
      split_ifs
      · simp
      all_goals simp [show j < W - rem by omega]
    rw [hup, Bool.or_false]
  · -- the bit comes from the upper word
    rw [BitVec.getLsbD_of_ge _ _ hhigh, Bool.false_or,
      show (off + k) * W + (rem + j) = (off + k + 1) * W + (rem + j - W) by omega]
    by_cases hlim : off + k + 1 ≥ words W nbits
    · have hle := Nat.mul_le_mul_right W hlim
      have hout : clean mem src nbits ((off + k + 1) * W + (rem + j - W)) = false := by
        unfold clean
        rw [decide_eq_false (by omega), Bool.false_and]
      rw [if_pos (Or.inr hlim), hout]
      simp
    · have hm := @masked_getLsbD W mem src nbits hW hpos h32 (off + k + 1) (rem + j - W) (not_le.mp hlim)
        (by omega)
      rw [if_neg (not_or.mpr ⟨by omega, hlim⟩), BitVec.getLsbD_shiftLeft, ← hm,
        show j - (W - rem) = rem + j - W by omega, decide_eq_true hj,
        decide_eq_false (show ¬ j < W - rem by omega)]
      rfl

/-- **A word of the shift to the left.** -/
theorem shiftLeftWord_getLsbD (hrem : rem < W) {j : ℕ} (hj : j < W) :
    (shiftLeftWord mem src rem k).getLsbD j =
      (decide (rem ≤ k * W + j) && bit (arrayAt mem src) (k * W + j - rem)) := by
  unfold shiftLeftWord
  dsimp only
  rw [BitVec.getLsbD_or, BitVec.getLsbD_shiftLeft, decide_eq_true hj, Bool.true_and]
  rcases Nat.lt_or_ge j rem with hlow | hhigh
  · rw [decide_eq_true hlow, Bool.not_true, Bool.false_and, Bool.or_false]
    cases k with
    | zero =>
      rw [if_neg (by omega), decide_eq_false (by omega), Bool.false_and]
      simp
    | succ k =>
      have hmul : (k + 1) * W = k * W + W := Nat.succ_mul _ _
      rw [if_pos ⟨by omega, Nat.succ_pos k⟩, BitVec.getLsbD_ushiftRight, decide_eq_true (by omega),
        Bool.true_and, show (k + 1) * W + j - rem = k * W + (W - rem + j) by omega,
        bit_arrayAt mem src k (by omega), Nat.add_sub_cancel]
  · have hlower : (if rem ≠ 0 ∧ k > 0 then mem (src + (k - 1)) >>> (W - rem) else 0).getLsbD j = false := by
      split_ifs
      · rw [BitVec.getLsbD_ushiftRight, BitVec.getLsbD_of_ge _ _ (by omega)]
      · simp
    rw [hlower, Bool.false_or, decide_eq_false (not_lt.mpr hhigh), decide_eq_true (by omega),
      show k * W + j - rem = k * W + (j - rem) by omega, bit_arrayAt mem src k (by omega)]
    rfl

/-! ### The loops -/

theorem shiftRightWord_congr {mem' : Memory W} (h : ∀ q, off + k ≤ q → q < lim → mem' (src + q) = mem (src + q))
    (hk : off + k < lim) : shiftRightWord mem' src lim off rem mask k =
      shiftRightWord mem src lim off rem mask k := by
  unfold shiftRightWord
  rw [h (off + k) le_rfl hk]
  by_cases hlim : off + k + 1 ≥ lim
  · simp only [if_pos (show rem = 0 ∨ off + k + 1 ≥ lim from Or.inr hlim)]
  · rw [h (off + k + 1) (Nat.le_succ _) (not_le.mp hlim)]

theorem shiftLeftWord_congr {mem' : Memory W} (h : ∀ q ≤ k, mem' (src + q) = mem (src + q)) :
    shiftLeftWord mem' src rem k = shiftLeftWord mem src rem k := by
  unfold shiftLeftWord
  rw [h k le_rfl, h (k - 1) (Nat.sub_le k 1)]

/-- The rounds so far have written the first words, each from the source as it was. -/
theorem shiftRightLoop_spec (hap : Apart lim dst src) : ∀ (n : ℕ), off + n ≤ lim → ∀ a,
    shiftRightLoop mem dst src lim off rem mask n a =
      if dst ≤ a ∧ a < dst + n then shiftRightWord mem src lim off rem mask (a - dst) else mem a
  | 0, _, a => by
    rw [if_neg (by omega)]
    rfl
  | n + 1, hn, a => by
    have ih := shiftRightLoop_spec hap n (by omega)
    have hword : shiftRightWord (shiftRightLoop mem dst src lim off rem mask n) src lim off rem mask n =
        shiftRightWord mem src lim off rem mask n := by
      refine shiftRightWord_congr (fun q hq hq' => ?_) (by omega)
      rw [ih, if_neg]
      rcases hap with rfl | h | h <;> omega
    rw [shiftRightLoop]
    by_cases ha : a = dst + n
    · rw [ha, Function.update_self, hword, if_pos (by omega), Nat.add_sub_cancel_left]
    · rw [Function.update_of_ne ha, ih]
      by_cases hin : dst ≤ a ∧ a < dst + n
      · rw [if_pos hin, if_pos (by omega)]
      · rw [if_neg hin, if_neg (by omega)]

theorem shiftLeftLoop_spec (hap : Apart lim dst src) : ∀ (n : ℕ) (mem : Memory W), off + n ≤ lim → ∀ a,
    shiftLeftLoop dst src off rem n mem a =
      if dst + off ≤ a ∧ a < dst + off + n then shiftLeftWord mem src rem (a - (dst + off)) else mem a
  | 0, mem, _, a => by
    rw [if_neg (by omega)]
    rfl
  | n + 1, mem, hn, a => by
    rw [shiftLeftLoop, shiftLeftLoop_spec hap n _ (by omega)]
    by_cases hin : dst + off ≤ a ∧ a < dst + off + n
    · rw [if_pos hin, if_pos (by omega)]
      refine shiftLeftWord_congr fun q hq => Function.update_of_ne ?_ _ _
      rcases hap with rfl | h | h <;> omega
    · rw [if_neg hin]
      by_cases ha : a = dst + (n + off)
      · rw [if_pos (by omega), ha, Function.update_self, show dst + (n + off) - (dst + off) = n by omega]
      · rw [Function.update_of_ne ha, if_neg (by omega)]

/-! ### The whole call -/

/-- A shift to the right puts bit `i + shift` of the source at `i`, and writes no other word. -/
def ShiftsRight (W shift nbits : ℕ) : Prop :=
  ∀ (mem : Memory W) (dst src : ℕ), Apart (words W nbits) dst src →
    (∀ i < nbits, bit (arrayAt (bitmapShiftRight mem dst src shift nbits) dst) i =
      (decide (i + shift < nbits) && bit (arrayAt mem src) (i + shift))) ∧
    ∀ a, a < dst ∨ dst + words W nbits ≤ a → bitmapShiftRight mem dst src shift nbits a = mem a

/-- A shift to the left puts bit `i - shift` of the source at `i`, and writes no other word. -/
def ShiftsLeft (W shift nbits : ℕ) : Prop :=
  ∀ (mem : Memory W) (dst src : ℕ), Apart (words W nbits) dst src →
    (∀ i < nbits, bit (arrayAt (bitmapShiftLeft mem dst src shift nbits) dst) i =
      (decide (shift ≤ i) && bit (arrayAt mem src) (i - shift))) ∧
    ∀ a, a < dst ∨ dst + words W nbits ≤ a → bitmapShiftLeft mem dst src shift nbits a = mem a

/-- The words that the shift skips are words of the bitmap. -/
theorem off_lt_words (hs : shift < nbits) : shift / W < words W nbits :=
  Nat.lt_succ_of_le (Nat.div_le_div_right (by omega))

theorem bitmapShiftRight_spec (hW : W = 32 ∨ W = 64) (h32 : nbits < 2 ^ 32) (hs : shift < nbits)
    (hfit : nbits + W ≤ 2 ^ W) : ShiftsRight W shift nbits := by
  intro mem dst src hap
  have hpos : 0 < nbits := by omega
  have hWpos : 0 < W := by omega
  have hrem : shift % W < W := Nat.mod_lt _ hWpos
  have hoff := @off_lt_words W _ _ hs
  have hlim := BITS_TO_LONGS_eq hW hpos h32 hfit
  have hsub : words W nbits - shift / W ≤ words W nbits := Nat.sub_le _ _
  have hlim32 : words W nbits < 2 ^ 32 := hlim ▸ Nat.mod_lt _ (by decide)
  -- what the call leaves at an address
  have hat : ∀ a, bitmapShiftRight mem dst src shift nbits a =
      if dst ≤ a ∧ a < dst + (words W nbits - shift / W) then
        shiftRightWord mem src (words W nbits) (shift / W) (shift % W) (BITMAP_LAST_WORD_MASK W nbits)
          (a - dst)
      else if dst ≤ a ∧ a < dst + words W nbits then 0 else mem a := by
    intro a
    have hloop := @shiftRightLoop_spec W mem dst src _ (shift / W) (shift % W)
      (BITMAP_LAST_WORD_MASK W nbits) hap (words W nbits - shift / W) (by omega) a
    unfold bitmapShiftRight
    rw [hlim, Nat.add_comm (words W nbits), Nat.add_sub_assoc hoff.le, Nat.add_mod_left,
      Nat.mod_eq_of_lt (show words W nbits - shift / W < 2 ^ 32 by omega)]
    by_cases h0 : shift / W = 0
    · rw [if_neg (not_not.mpr h0), hloop]
      by_cases h1 : dst ≤ a ∧ a < dst + (words W nbits - shift / W)
      · rw [if_pos h1, if_pos h1]
      · rw [if_neg h1, if_neg h1, if_neg (by omega)]
    · rw [if_pos h0]
      simp only [memsetZero]
      by_cases h1 : dst ≤ a ∧ a < dst + (words W nbits - shift / W)
      · rw [if_neg (by omega), hloop, if_pos h1, if_pos h1]
      · rw [if_neg h1, hloop, if_neg h1]
        by_cases h2 : dst ≤ a ∧ a < dst + words W nbits
        · rw [if_pos h2, if_pos (by omega)]
        · rw [if_neg h2, if_neg (by omega)]
  refine ⟨fun i hi => ?_, fun a ha => ?_⟩
  · have hdi := Nat.div_add_mod i W
    have hds := Nat.div_add_mod shift W
    have hq : i / W < words W nbits := off_lt_words hi
    have hnonneg := Nat.zero_le (i / W)
    have hbit : bit (arrayAt (bitmapShiftRight mem dst src shift nbits) dst) i =
        (bitmapShiftRight mem dst src shift nbits (dst + i / W)).getLsbD (i % W) := rfl
    rw [hbit, hat]
    by_cases hin : i / W < words W nbits - shift / W
    · rw [if_pos (by omega), Nat.add_sub_cancel_left, shiftRightWord_getLsbD hW hpos h32 hrem (by omega)
        (Nat.mod_lt _ hWpos), Nat.add_mul, Nat.mul_comm (shift / W), Nat.mul_comm (i / W),
        show W * (shift / W) + W * (i / W) + (shift % W + i % W) = i + shift by omega]
      rfl
    · have hout : words W nbits * W ≤ (i / W + shift / W) * W := Nat.mul_le_mul_right W (by omega)
      have hend := @le_words_mul W nbits hWpos
      rw [Nat.add_mul, Nat.mul_comm (i / W), Nat.mul_comm (shift / W)] at hout
      rw [if_neg (by omega), if_pos (by omega), decide_eq_false (by omega)]
      simp
  · rw [hat, if_neg (by omega), if_neg (by omega)]

theorem bitmapShiftLeft_spec (hW : W = 32 ∨ W = 64) (h32 : nbits < 2 ^ 32) (hs : shift < nbits)
    (hfit : nbits + W ≤ 2 ^ W) : ShiftsLeft W shift nbits := by
  intro mem dst src hap
  have hpos : 0 < nbits := by omega
  have hWpos : 0 < W := by omega
  have hrem : shift % W < W := Nat.mod_lt _ hWpos
  have hoff := @off_lt_words W _ _ hs
  have hlim := BITS_TO_LONGS_eq hW hpos h32 hfit
  have hnn := Nat.zero_le (shift / W)
  have hat : ∀ a, bitmapShiftLeft mem dst src shift nbits a =
      if dst ≤ a ∧ a < dst + shift / W then 0
      else if dst + shift / W ≤ a ∧ a < dst + words W nbits then
        shiftLeftWord mem src (shift % W) (a - (dst + shift / W))
      else mem a := by
    intro a
    have hloop := @shiftLeftLoop_spec W dst src _ (shift / W) (shift % W) hap
      (words W nbits - shift / W) mem (by omega) a
    rw [show dst + shift / W + (words W nbits - shift / W) = dst + words W nbits by omega] at hloop
    unfold bitmapShiftLeft
    rw [hlim]
    by_cases h0 : shift / W = 0
    · rw [if_neg (not_not.mpr h0), if_neg (by omega), hloop]
    · rw [if_pos h0]
      simp only [memsetZero]
      by_cases h1 : dst ≤ a ∧ a < dst + shift / W
      · rw [if_pos h1, if_pos h1]
      · rw [if_neg h1, if_neg h1, hloop]
  refine ⟨fun i hi => ?_, fun a ha => ?_⟩
  · have hdi := Nat.div_add_mod i W
    have hds := Nat.div_add_mod shift W
    have hmod := Nat.mod_lt i hWpos
    have hq : i / W < words W nbits := off_lt_words hi
    have hnonneg := Nat.zero_le (i / W)
    have hbit : bit (arrayAt (bitmapShiftLeft mem dst src shift nbits) dst) i =
        (bitmapShiftLeft mem dst src shift nbits (dst + i / W)).getLsbD (i % W) := rfl
    rw [hbit, hat]
    by_cases hlow : i / W < shift / W
    · have hmul : W * (i / W + 1) ≤ W * (shift / W) := Nat.mul_le_mul_left W hlow
      rw [Nat.mul_succ] at hmul
      rw [if_pos (by omega), decide_eq_false (by omega)]
      simp
    · obtain ⟨k, hk⟩ := Nat.exists_eq_add_of_le (not_lt.mp hlow)
      rw [hk, Nat.mul_add] at hdi
      rw [if_neg (by omega), if_pos (by omega), hk, Nat.add_sub_add_left, Nat.add_sub_cancel_left,
        shiftLeftWord_getLsbD hrem (Nat.mod_lt _ hWpos), Nat.mul_comm k W]
      rw [show W * k + i % W - shift % W = i - shift by omega]
      congr 1
      rw [decide_eq_decide]
      omega
  · rw [hat, if_neg (by omega), if_neg (by omega)]

/-- A memory with ones below `n`, and zeros from there on. -/
def onesBefore (W n : ℕ) : Memory W := fun a => if a < n then BitVec.allOnes W else 0

/-- Where the number of words wraps around to zero, nothing is shifted. -/
theorem not_shiftsRight (hW : W = 32 ∨ W = 64) (h32 : nbits < 2 ^ 32) (hs : shift < nbits)
    (hfit : 2 ^ W < nbits + W) : ¬ ShiftsRight W shift nbits := by
  intro h
  have hWpos : 0 < W := by omega
  have hoff : shift / W ≤ shift := Nat.div_le_self _ _
  have hwords : 0 < words W nbits := Nat.succ_pos _
  obtain ⟨hbits, -⟩ := h (onesBefore W (words W nbits)) 0 (words W nbits)
    (Or.inr (Or.inl (by omega)))
  have hbit := hbits 0 (by omega)
  have hsrc : bit (arrayAt (onesBefore W (words W nbits)) (words W nbits))
      (0 + shift) = false := by
    simp [bit, arrayAt, onesBefore]
  have hlim := BITS_TO_LONGS_wrap hW h32 hfit
  have hdst : bitmapShiftRight (onesBefore W (words W nbits)) 0
      (words W nbits) shift nbits 0 = BitVec.allOnes W := by
    unfold bitmapShiftRight
    rw [hlim, Nat.zero_sub, shiftRightLoop]
    generalize shift / W = off at hoff ⊢
    split_ifs with h0
    · unfold memsetZero
      rw [if_neg]
      · exact if_pos hwords
      · rw [Nat.zero_add, Nat.zero_add, Nat.mod_eq_of_lt (by omega)]
        omega
    · exact if_pos hwords
  have hval : bit (arrayAt (bitmapShiftRight (onesBefore W (words W nbits)) 0
      (words W nbits) shift nbits) 0) 0 = true := by
    unfold bit arrayAt
    rw [Nat.zero_div, Nat.zero_mod, Nat.zero_add, hdst]
    simp [hWpos]
  rw [hsrc, hval, Bool.and_false] at hbit
  cases hbit

/-- **Bitmap shifts are bitwise shifts**, for arrays that are one or apart, exactly if the number of
bits can be rounded up to a word. -/
theorem shifts_iff (hW : W = 32 ∨ W = 64) {shift nbits : ℕ} (h32 : nbits < 2 ^ 32)
    (hs : shift < nbits) :
    (ShiftsRight W shift nbits ∧ ShiftsLeft W shift nbits) ↔ nbits + W ≤ 2 ^ W := by
  refine ⟨fun h => ?_, fun hfit => ⟨bitmapShiftRight_spec hW h32 hs hfit,
    bitmapShiftLeft_spec hW h32 hs hfit⟩⟩
  by_contra hfit
  exact not_shiftsRight hW h32 hs (by omega) h.1

/-- A shift by 65 in a bitmap of 100 bits. -/
theorem shifts_iff_two : 65 < 100 ∧
    ((ShiftsRight 64 65 100 ∧ ShiftsLeft 64 65 100) ↔ 100 + 64 ≤ 2 ^ 64) :=
  ⟨by decide, shifts_iff (Or.inr rfl) (by decide) (by decide)⟩

/-- On 32 bits, the largest number of bits rounds up to no word at all. -/
theorem not_shiftsRight_max : ¬ ShiftsRight 32 0 (2 ^ 32 - 1) :=
  not_shiftsRight (Or.inl rfl) (by decide) (by decide) (by decide)

end HardStack.BitmapBasic.Shift
