import HardStack.BitmapBasic.Logic

/-! # Ranges of a bitmap

`__bitmap_set` and `__bitmap_clear` go through the words of a range. The first word is masked from the
start on, the last one up to the end, and both where the range is inside of one word. -/

namespace HardStack.BitmapBasic.Range

open HardStack.BitmapBasic.Model HardStack.BitmapBasic.Search HardStack.BitmapBasic.Logic

variable {W : ℕ}

/-- The loop and the last word of `__bitmap_set` and of `__bitmap_clear`, where `op` changes a word under a
mask. -/
def rangeLoop (op : BitVec W → BitVec W → BitVec W) (size : ℕ) :
    ℕ → (ℕ → BitVec W) → ℕ → ℤ → ℕ → BitVec W → ℕ → BitVec W
  | 0, map, _, _, _, _ => map
  | fuel + 1, map, p, len, bits, mask =>
    if 0 ≤ len - bits then
      rangeLoop op size fuel (Function.update map p (op (map p) mask)) (p + 1) (len - bits) W (BitVec.allOnes W)
    else if len ≠ 0 then Function.update map p (op (map p) (mask &&& BITMAP_LAST_WORD_MASK W size))
    else map

/-- A round takes a bit from the `int` `len` at least. -/
def range (op : BitVec W → BitVec W → BitVec W) (map : ℕ → BitVec W) (start : ℕ) (len : ℤ) : ℕ → BitVec W :=
  rangeLoop op ((start + len) % 2 ^ 32).toNat (len.toNat + 1) map (start / W) len (W - start % W)
    (BITMAP_FIRST_WORD_MASK W start)

/-- `__bitmap_set`. -/
def bitmapSet (map : ℕ → BitVec W) (start : ℕ) (len : ℤ) : ℕ → BitVec W := range (· ||| ·) map start len

/-- `__bitmap_clear`. -/
def bitmapClear (map : ℕ → BitVec W) (start : ℕ) (len : ℤ) : ℕ → BitVec W :=
  range (fun v mask => v &&& ~~~mask) map start len

theorem bit_update (map : ℕ → BitVec W) (p : ℕ) (v : BitVec W) (i : ℕ) :
    bit (Function.update map p v) i = if i / W = p then v.getLsbD (i % W) else bit map i := by
  unfold bit
  rw [Function.update_apply]
  split_ifs <;> rfl

/-- At the start of a word nothing is masked. -/
theorem firstWordMask_mul (hW : W = 32 ∨ W = 64) (q : ℕ) :
    BITMAP_FIRST_WORD_MASK W (W * q) = BitVec.allOnes W := by
  rw [BITMAP_FIRST_WORD_MASK, and_pred hW, Nat.mul_mod_right, BitVec.shiftLeft_zero]

/-- A word is changed where the mask is set. -/
def Masked (op : BitVec W → BitVec W → BitVec W) (c : Bool) : Prop :=
  ∀ v mask : BitVec W, ∀ j < W, (op v mask).getLsbD j = if mask.getLsbD j = true then c else v.getLsbD j

section

variable {op : BitVec W → BitVec W → BitVec W} {c : Bool} {map : ℕ → BitVec W} {lo len size : ℕ}

/-- The rest of a word, from `lo` on. -/
theorem bit_first (hW : W = 32 ∨ W = 64) (hop : Masked op c) (i : ℕ) :
    bit (Function.update map (lo / W) (op (map (lo / W)) (BITMAP_FIRST_WORD_MASK W lo))) i =
      if lo ≤ i ∧ i < W * (lo / W + 1) then c else bit map i := by
  have hj : i % W < W := Nat.mod_lt i (by omega)
  rw [bit_update]
  by_cases hq : i / W = lo / W
  · have hiff : lo % W ≤ i % W ↔ lo ≤ i ∧ i < W * (lo / W + 1) := by
      rcases hW with rfl | rfl <;> omega
    rw [if_pos hq, hop _ _ _ hj]
    refine if_congr ?_ rfl (by rw [← hq]; rfl)
    rw [firstWordMask_getLsbD hW hj, decide_eq_true_eq]
    exact hiff
  · rw [if_neg hq, if_neg]
    rcases hW with rfl | rfl <;> omega

/-- A range inside of a word. -/
theorem bit_inside (hW : W = 32 ∨ W = 64) (hop : Masked op c) (hsize : size % W = (lo + len) % W)
    (h32 : size < 2 ^ 32) (hpos : len ≠ 0) (hlt : len < W - lo % W) (i : ℕ) :
    bit (Function.update map (lo / W) (op (map (lo / W))
      (BITMAP_FIRST_WORD_MASK W lo &&& BITMAP_LAST_WORD_MASK W size))) i =
      if lo ≤ i ∧ i < lo + len then c else bit map i := by
  have hj : i % W < W := Nat.mod_lt i (by omega)
  have hend : size % W = lo % W + len := by
    rcases hW with rfl | rfl <;> omega
  rw [bit_update]
  by_cases hq : i / W = lo / W
  · have hiff : lo % W ≤ i % W ∧ i % W < size % W ↔ lo ≤ i ∧ i < lo + len := by
      rcases hW with rfl | rfl <;> omega
    rw [if_pos hq, hop _ _ _ hj]
    refine if_congr ?_ rfl (by rw [← hq]; rfl)
    rw [BitVec.getLsbD_and, firstWordMask_getLsbD hW hj, lastMask hW h32 (by omega) hj, Bool.and_eq_true,
      decide_eq_true_eq, decide_eq_true_eq]
    exact hiff
  · rw [if_neg hq, if_neg]
    rcases hW with rfl | rfl <;> omega

/-- By induction on the rounds, each of which starts at a bit `lo`. -/
theorem rangeLoop_spec (hW : W = 32 ∨ W = 64) (hop : Masked op c) (h32 : size < 2 ^ 32) (fuel : ℕ)
    (hfuel : len < fuel) (hsize : size % W = (lo + len) % W) (i : ℕ) :
    bit (rangeLoop op size fuel map (lo / W) len (W - lo % W : ℕ) (BITMAP_FIRST_WORD_MASK W lo)) i =
      if lo ≤ i ∧ i < lo + len then c else bit map i := by
  induction fuel generalizing map lo len with
  | zero => exact absurd hfuel (Nat.not_lt_zero _)
  | succ fuel ih =>
    have hmod : lo % W < W := Nat.mod_lt lo (by omega)
    rw [rangeLoop]
    by_cases hle : W - lo % W ≤ len
    · have hnext : W * (lo / W + 1) = lo + (W - lo % W) := by
        rcases hW with rfl | rfl <;> omega
      have hpos : 0 < W := by omega
      have hround := @ih (Function.update map (lo / W) (op (map (lo / W)) (BITMAP_FIRST_WORD_MASK W lo)))
        (W * (lo / W + 1)) (len - (W - lo % W)) (by omega)
        (by rw [hsize, hnext]; congr 1; omega)
      rw [Nat.mul_div_cancel_left _ hpos, Nat.mul_mod_right, Nat.sub_zero, firstWordMask_mul hW,
        Nat.cast_sub hle] at hround
      rw [if_pos (by omega), hround, bit_first hW hop, hnext]
      split_ifs <;> first | rfl | omega
    · rw [if_neg (by omega)]
      by_cases hpos : len = 0
      · rw [if_neg (by omega), if_neg (by omega)]
      · rw [if_pos (by omega)]
        exact bit_inside hW hop hsize h32 hpos (by omega) i

theorem range_spec (hW : W = 32 ∨ W = 64) (hop : Masked op c) (map : ℕ → BitVec W) (start len i : ℕ) :
    bit (range op map start len) i = if start ≤ i ∧ i < start + len then c else bit map i := by
  have hsize : (((start : ℤ) + len) % 2 ^ 32).toNat = (start + len) % 2 ^ 32 := by omega
  rw [range, hsize]
  exact rangeLoop_spec hW hop (Nat.mod_lt _ (by decide)) _ (Nat.lt_succ_self len)
    (by rcases hW with rfl | rfl <;> omega) i

end

theorem set_masked : @Masked W (· ||| ·) true := fun v mask j _ => by
  rw [BitVec.getLsbD_or]
  cases mask.getLsbD j <;> simp

theorem clear_masked : @Masked W (fun v mask => v &&& ~~~mask) false := fun v mask j hj => by
  rw [BitVec.getLsbD_and, BitVec.getLsbD_not, decide_eq_true hj, Bool.true_and]
  cases mask.getLsbD j <;> simp

/-- **`__bitmap_set` and `__bitmap_clear`** change the bits from `start` on, `len` of them, and no other, also
where the `unsigned int` `start + len` wraps. -/
theorem bitmap_ranges (hW : W = 32 ∨ W = 64) (map : ℕ → BitVec W) (start i : ℕ) (len : ℤ) (hlen : 0 ≤ len) :
    bit (bitmapSet map start len) i = (bit map i || decide (start ≤ i ∧ i < start + len)) ∧
      bit (bitmapClear map start len) i = (bit map i && !decide (start ≤ i ∧ i < start + len)) := by
  obtain ⟨n, rfl⟩ := Int.eq_ofNat_of_zero_le hlen
  have hiff : start ≤ i ∧ (i : ℤ) < start + n ↔ start ≤ i ∧ i < start + n := by omega
  unfold bitmapSet bitmapClear
  rw [range_spec hW set_masked, range_spec hW clear_masked]
  simp only [hiff]
  by_cases h : start ≤ i ∧ i < start + n
  · rw [if_pos h, if_pos h, decide_eq_true h]
    exact ⟨(Bool.or_true _).symm, (Bool.and_false _).symm⟩
  · rw [if_neg h, if_neg h, decide_eq_false h]
    exact ⟨(Bool.or_false _).symm, (Bool.and_true _).symm⟩

/-- Over two words. -/
theorem bitmap_ranges_twoWords : bit (bitmapSet (fun _ => 0 : ℕ → BitVec 32) 30 5) 33 = true ∧
    bit (bitmapClear (fun _ => BitVec.allOnes 32) 30 5) 35 = true := by
  have hset := (bitmap_ranges (Or.inl rfl) (fun _ => 0 : ℕ → BitVec 32) 30 33 5 (by decide)).1
  have hclear := (bitmap_ranges (Or.inl rfl) (fun _ => BitVec.allOnes 32) 30 35 5 (by decide)).2
  exact ⟨hset.trans (by decide), hclear.trans (by decide)⟩

end HardStack.BitmapBasic.Range
