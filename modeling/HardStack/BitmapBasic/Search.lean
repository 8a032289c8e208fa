import HardStack.BitmapBasic.Model
import HardStack.Lib.Word

/-! # The first aligned area of clear bits

`_find_next_bit` is the search of the library on the bits of the array, as long as the number of bits
leaves room for the index of one more word. The search for an area goes on past the last bit that is
in its way and rounds the index up; it is exact where none of the indices it computes leaves the
word. -/

namespace HardStack.BitmapBasic.Search

open HardStack.Lib HardStack.BitmapBasic.Model

variable {W : ℕ}

/-! ### Words -/

theorem and_pred (hW : W = 32 ∨ W = 64) (x : ℕ) : x &&& (W - 1) = x % W := by
  rcases hW with rfl | rfl
  · exact Nat.and_two_pow_sub_one_eq_mod x 5
  · exact Nat.and_two_pow_sub_one_eq_mod x 6

theorem roundDown_eq (hW : W = 32 ∨ W = 64) {x : ℕ} (hx : x < 2 ^ W) :
    x &&& (2 ^ W - 1 - (W - 1)) = W * (x / W) := by
  rcases hW with rfl | rfl
  · exact Word.and_notW (W := 32) (k := 5) (by decide) hx
  · exact Word.and_notW (W := 64) (k := 6) (by decide) hx

theorem firstWordMask_getLsbD (hW : W = 32 ∨ W = 64) {start j : ℕ} (hj : j < W) :
    (BITMAP_FIRST_WORD_MASK W start).getLsbD j = decide (start % W ≤ j) := by
  unfold BITMAP_FIRST_WORD_MASK
  rw [and_pred hW, BitVec.getLsbD_shiftLeft, BitVec.getLsbD_allOnes]
  by_cases h : start % W ≤ j
  · simp [h, hj, show ¬ j < start % W by omega, show j - start % W < W by omega]
  · simp [h, show j < start % W by omega]

theorem getLsbD_low (j : ℕ) : (0xffffffff : BitVec 64).getLsbD j = decide (j < 32) := by
  have h : (0xffffffff : BitVec 64) = (BitVec.allOnes 32).setWidth 64 := by decide
  rw [h, BitVec.getLsbD_setWidth, BitVec.getLsbD_allOnes]
  by_cases hj : j < 32
  · rw [decide_eq_true hj, decide_eq_true (show j < 64 by omega), Bool.true_and]
  · rw [decide_eq_false hj, Bool.and_false]

/-- **`__ffs`**: the least set bit. -/
theorem ffs_spec {word : BitVec W} (h : word ≠ 0) :
    ffs word < W ∧ word.getLsbD (ffs word) = true ∧ ∀ j < ffs word, word.getLsbD j = false := by
  obtain ⟨-, hle, hno, hhit⟩ := Bitmap.seek_spec (p := word.getLsbD) W 0
  rw [zero_add] at hle hhit
  have hlt : ffs word < W := by
    refine lt_of_le_of_ne hle fun heq => h (BitVec.eq_of_getLsbD_eq fun j hj => ?_)
    rw [hno j (Nat.zero_le j) (hj.trans_eq heq.symm)]
    simp
  exact ⟨hlt, hhit hlt, fun j hj => hno j (Nat.zero_le j) hj⟩

/-! ### `_find_next_bit` -/

/-- The bits that the search looks at. -/
def sought (addr1 : ℕ → BitVec W) (addr2 : Option (ℕ → BitVec W)) (invert : BitVec W) (i : ℕ) : Bool :=
  (fetch addr1 addr2 invert i).getLsbD (i % W)

section

variable {addr1 : ℕ → BitVec W} {addr2 : Option (ℕ → BitVec W)} {invert : BitVec W} {nbits : ℕ}

theorem sought_word {q j : ℕ} (hj : j < W) :
    sought addr1 addr2 invert (W * q + j) = (fetch addr1 addr2 invert (W * q)).getLsbD j := by
  have hW : 0 < W := by omega
  unfold sought fetch
  rw [Nat.mul_add_mod, Nat.mod_eq_of_lt hj, Nat.mul_add_div hW, Nat.div_eq_of_lt hj, add_zero,
    Nat.mul_div_cancel_left _ hW]

/-- The loop, at the word `q` of which the bits before `start` are masked out. -/
theorem findNextBitLoop_spec (hW : 0 < W) (hn : nbits + W ≤ 2 ^ W) :
    ∀ (n : ℕ) (tmp : BitVec W) (q start : ℕ), W * q ≤ start → start < W * q + W → start < nbits →
      (∀ j < W, tmp.getLsbD j = (decide (start ≤ W * q + j) && sought addr1 addr2 invert (W * q + j))) →
      nbits < W * (q + n) → findNextBitLoop addr1 addr2 nbits invert n tmp (W * q) =
        some (Bitmap.next (sought addr1 addr2 invert) nbits start)
  | 0, _, q, start, h1, _, h2, _, hf => absurd hf (by rw [add_zero]; omega)
  | n + 1, tmp, q, start, h1, hq, h2, htmp, hf => by
    have hnext : W * (q + 1) = W * q + W := Nat.mul_succ W q
    have hword : ∀ i, W * q ≤ i → i < W * q + W → ∃ j < W, i = W * q + j :=
      fun i hi hi' => ⟨i - W * q, by omega, by omega⟩
    rw [findNextBitLoop]
    by_cases h0 : tmp = 0
    · rw [if_pos h0]
      dsimp only
      have hnone : ∀ i, start ≤ i → i < W * q + W → sought addr1 addr2 invert i = false := by
        intro i hi hi'
        obtain ⟨j, hj, rfl⟩ := hword i (h1.trans hi) hi'
        have := htmp j hj
        rw [h0, decide_eq_true hi, Bool.true_and] at this
        rw [← this]
        simp
      rw [Nat.mod_eq_of_lt (by omega)]
      by_cases hend : W * q + W ≥ nbits
      · rw [if_pos hend, Bitmap.next_eq h2.le le_rfl (fun i hi hi' => hnone i hi (by omega))
          fun h => absurd h (lt_irrefl _)]
      · rw [if_neg hend, ← hnext]
        rw [findNextBitLoop_spec hW hn n _ (q + 1) (W * (q + 1)) le_rfl (by omega) (by omega) ?_
          (by rwa [Nat.add_right_comm, Nat.add_assoc])]
        · obtain ⟨g1, g2, g3, g4⟩ := Bitmap.next_spec (p := sought addr1 addr2 invert)
            (show W * (q + 1) ≤ nbits by omega)
          refine congrArg some (Bitmap.next_eq (by omega) g2 (fun i hi hi' => ?_) g4).symm
          rcases Nat.lt_or_ge i (W * q + W) with h | h
          · exact hnone i hi h
          · exact g3 i (by omega) hi'
        · intro j hj
          rw [decide_eq_true (Nat.le_add_right _ j), Bool.true_and, sought_word hj]
    · rw [if_neg h0]
      obtain ⟨hlt, hset, hclear⟩ := ffs_spec h0
      have hbit := htmp _ hlt
      rw [hset, eq_comm, Bool.and_eq_true, decide_eq_true_eq] at hbit
      rw [Nat.mod_eq_of_lt (by omega)]
      refine congrArg some (Bitmap.next_eq ?_ (min_le_right _ _) (fun i hi hi' => ?_) fun h => ?_).symm
      · exact le_min hbit.1 h2.le
      · rw [lt_min_iff] at hi'
        obtain ⟨j, hj, rfl⟩ := hword i (h1.trans hi) (by omega)
        have := htmp j hj
        rw [hclear j (by omega), decide_eq_true hi, Bool.true_and] at this
        exact this.symm
      · rw [min_eq_left (by omega)]
        exact hbit.2

/-- The loop with a bit ahead of it, whatever the number of bits. -/
theorem findNextBitLoop_found {top : ℕ} (htop : nbits ≤ W * top) (hcap : W * top ≤ 2 ^ W) {i : ℕ}
    (hi : i < W * top) (hbit : sought addr1 addr2 invert i = true) :
    ∀ (n : ℕ) (tmp : BitVec W) (q start : ℕ), W * q ≤ start → start < W * q + W → start < nbits →
      (∀ j < W, tmp.getLsbD j = (decide (start ≤ W * q + j) && sought addr1 addr2 invert (W * q + j))) →
      start ≤ i → top ≤ q + n → findNextBitLoop addr1 addr2 nbits invert n tmp (W * q) =
        some (min (Bitmap.next (sought addr1 addr2 invert) (W * top) start) nbits)
  | 0, _, q, start, h1, _, _, _, hs, hf => by
    have hle := Nat.mul_le_mul_left W hf
    rw [Nat.add_zero] at hle
    omega
  | n + 1, tmp, q, start, h1, hq, h2, htmp, hs, hf => by
    have hW : 0 < W := by omega
    have hnext : W * (q + 1) = W * q + W := Nat.mul_succ W q
    have hword : ∀ i, W * q ≤ i → i < W * q + W → ∃ j < W, i = W * q + j :=
      fun i hi hi' => ⟨i - W * q, by omega, by omega⟩
    obtain ⟨g1, g2, g3, g4⟩ := Bitmap.next_spec (p := sought addr1 addr2 invert) (h2.le.trans htop)
    rw [findNextBitLoop]
    by_cases h0 : tmp = 0
    · rw [if_pos h0]
      dsimp only
      have hnone : ∀ i, start ≤ i → i < W * q + W → sought addr1 addr2 invert i = false := by
        intro i hi hi'
        obtain ⟨j, hj, rfl⟩ := hword i (h1.trans hi) hi'
        have := htmp j hj
        rw [h0, decide_eq_true hi, Bool.true_and] at this
        rw [← this]
        simp
      have hlater : W * q + W ≤ i := by
        by_contra hlt
        rw [hnone i hs (by omega)] at hbit
        cases hbit
      have hge : W * q + W ≤ Bitmap.next (sought addr1 addr2 invert) (W * top) start := by
        by_contra hlt
        have := hnone _ g1 (by omega)
        rw [g4 (by omega)] at this
        cases this
      rw [Nat.mod_eq_of_lt (by omega)]
      by_cases hend : W * q + W ≥ nbits
      · rw [if_pos hend, min_eq_right (hend.trans hge)]
      · rw [if_neg hend, ← hnext]
        rw [findNextBitLoop_found htop hcap hi hbit n _ (q + 1) (W * (q + 1)) le_rfl (by omega) (by omega)
          ?_ (by omega) (by omega)]
        · rw [Bitmap.next_eq (v := Bitmap.next (sought addr1 addr2 invert) (W * top) start)
            (by omega) g2 (fun k hk hk' => g3 k (by omega) hk') g4]
        · intro j hj
          rw [decide_eq_true (Nat.le_add_right _ j), Bool.true_and, sought_word hj]
    · rw [if_neg h0]
      obtain ⟨hlt, hset, hclear⟩ := ffs_spec h0
      have hfirst := htmp _ hlt
      rw [hset, eq_comm, Bool.and_eq_true, decide_eq_true_eq] at hfirst
      have hqtop : q < top := by
        by_contra hle
        have := Nat.mul_le_mul_left W (not_lt.mp hle)
        omega
      have hroom : W * q + W ≤ W * top := by
        rw [← hnext]
        exact Nat.mul_le_mul_left W hqtop
      rw [Nat.mod_eq_of_lt (by omega)]
      rw [Bitmap.next_eq (v := W * q + ffs tmp) hfirst.1 (by omega) (fun k hk hk' => ?_) fun _ => hfirst.2]
      obtain ⟨j, hj, rfl⟩ := hword k (h1.trans hk) (by omega)
      have := htmp j hj
      rw [hclear j (by omega), decide_eq_true hk, Bool.true_and] at this
      exact this.symm

/-- With less than a word left above the bitmap, what the loop finds is a bit, also after the index has
wrapped. -/
theorem findNextBitLoop_sound (hW : W = 32 ∨ W = 64) (hn : 2 ^ W < nbits + W) :
    ∀ (n : ℕ) (tmp : BitVec W) (q : ℕ) {r : ℕ}, W * q < 2 ^ W →
      (∀ j < W, tmp.getLsbD j = true → sought addr1 addr2 invert (W * q + j) = true) →
      findNextBitLoop addr1 addr2 nbits invert n tmp (W * q) = some r →
      ∃ i < 2 ^ W, sought addr1 addr2 invert i = true ∧ r = min i nbits
  | 0, _, _, _, _, _, hr => by cases hr
  | n + 1, tmp, q, r, hq, htmp, hr => by
    obtain ⟨c, hc⟩ : W ∣ 2 ^ W := by
      rcases hW with rfl | rfl
      · exact ⟨2 ^ 27, rfl⟩
      · exact ⟨2 ^ 58, rfl⟩
    have hroom : ∀ q', W * q' < 2 ^ W → W * q' + W ≤ 2 ^ W := by
      intro q' hq'
      rw [hc] at hq' ⊢
      rw [← Nat.mul_succ]
      exact Nat.mul_le_mul_left W (Nat.succ_le_of_lt (Nat.lt_of_mul_lt_mul_left hq'))
    rw [findNextBitLoop] at hr
    by_cases h0 : tmp = 0
    · rw [if_pos h0] at hr
      dsimp only at hr
      obtain ⟨q', hq'⟩ : ∃ q', (W * q + W) % 2 ^ W = W * q' := by
        rw [← Nat.mul_succ, hc, Nat.mul_mod_mul_left]
        exact ⟨_, rfl⟩
      have hlt : W * q' < 2 ^ W := by
        rw [← hq']
        exact Nat.mod_lt _ (by positivity)
      have := hroom q' hlt
      rw [hq', if_neg (by omega)] at hr
      refine findNextBitLoop_sound hW hn n _ q' hlt (fun j hj hset => ?_) hr
      rw [sought_word hj]
      exact hset
    · rw [if_neg h0] at hr
      obtain ⟨hffs, hset, -⟩ := ffs_spec h0
      have := hroom q hq
      rw [Nat.mod_eq_of_lt (by omega)] at hr
      exact ⟨_, by omega, htmp _ hffs hset, (Option.some.inj hr).symm⟩

/-- The first word. -/
theorem firstWord_getLsbD (hW : W = 32 ∨ W = 64) (start : ℕ) : ∀ j < W,
    (fetch addr1 addr2 invert start &&& BITMAP_FIRST_WORD_MASK W start).getLsbD j =
      (decide (start ≤ W * (start / W) + j) && sought addr1 addr2 invert (W * (start / W) + j)) := by
  intro j hj
  have hdiv := Nat.div_add_mod start W
  have hfetch : fetch addr1 addr2 invert start = fetch addr1 addr2 invert (W * (start / W)) := by
    unfold fetch
    rw [Nat.mul_div_cancel_left _ (by omega)]
  rw [BitVec.getLsbD_and, firstWordMask_getLsbD hW hj, sought_word hj, hfetch, Bool.and_comm]
  congr 1
  rw [decide_eq_decide]
  omega

/-- The call, once its first word is fetched. -/
theorem findNextBitIn_eq (hW : W = 32 ∨ W = 64) {start : ℕ} (hs : start < nbits) (hlt : start < 2 ^ W)
    (fuel : ℕ) : findNextBitIn addr1 addr2 nbits start invert fuel =
      findNextBitLoop addr1 addr2 nbits invert fuel
        (fetch addr1 addr2 invert start &&& BITMAP_FIRST_WORD_MASK W start) (W * (start / W)) := by
  unfold findNextBitIn
  rw [if_neg (not_le.mpr hs)]
  dsimp only
  rw [roundDown_eq hW hlt]

/-- **`_find_next_bit`** is the search. -/
theorem findNextBitIn_spec (hW : W = 32 ∨ W = 64) (hn : nbits + W ≤ 2 ^ W) {start fuel : ℕ}
    (hf : nbits < fuel) : findNextBitIn addr1 addr2 nbits start invert fuel =
      some (Bitmap.next (sought addr1 addr2 invert) nbits start) := by
  have hpos : 0 < W := by omega
  by_cases hs : start ≥ nbits
  · unfold findNextBitIn Bitmap.next
    rw [if_pos hs, if_pos hs]
  · have hdiv := Nat.div_add_mod start W
    have hmod := Nat.mod_lt start hpos
    rw [findNextBitIn_eq hW (not_le.mp hs) (by omega)]
    refine findNextBitLoop_spec hpos hn fuel _ _ start (Nat.mul_div_le _ _) (by omega) (by omega)
      (firstWord_getLsbD hW start) ?_
    have hmul : 1 * fuel ≤ W * fuel := Nat.mul_le_mul_right fuel hpos
    rw [Nat.mul_add]
    omega

/-- **A bit from `start` on** is found, whatever the number of bits. -/
theorem findNextBitIn_found (hW : W = 32 ∨ W = 64) (hn : nbits < 2 ^ W) {start i fuel : ℕ}
    (hs : start < nbits) (hi : start ≤ i) (hlt : i < 2 ^ W) (hbit : sought addr1 addr2 invert i = true)
    (hf : 2 ^ W ≤ fuel) : findNextBitIn addr1 addr2 nbits start invert fuel =
      some (Bitmap.next (sought addr1 addr2 invert) nbits start) := by
  obtain ⟨c, hc⟩ : W ∣ 2 ^ W := by
    rcases hW with rfl | rfl
    · exact ⟨2 ^ 27, rfl⟩
    · exact ⟨2 ^ 58, rfl⟩
  have hpos : 0 < W := by omega
  have hdiv := Nat.div_add_mod start W
  have hmod := Nat.mod_lt start hpos
  have hcle : 1 * c ≤ W * c := Nat.mul_le_mul_right c hpos
  rw [findNextBitIn_eq hW hs (by omega)]
  rw [findNextBitLoop_found (show nbits ≤ W * c by omega) hc.ge (by omega) hbit fuel _ _ start (Nat.mul_div_le _ _)
    (by omega) hs (firstWord_getLsbD hW start) hi (le_add_left (by omega))]
  rw [Bitmap.min_next hs.le (by omega)]

/-- With less than a word left above the bitmap, what the call finds is a bit. -/
theorem findNextBitIn_sound (hW : W = 32 ∨ W = 64) (hn : 2 ^ W < nbits + W) {start fuel r : ℕ}
    (hs : start < nbits) (hlt : start < 2 ^ W)
    (hr : findNextBitIn addr1 addr2 nbits start invert fuel = some r) :
    ∃ i < 2 ^ W, sought addr1 addr2 invert i = true ∧ r = min i nbits := by
  rw [findNextBitIn_eq hW hs hlt] at hr
  refine findNextBitLoop_sound hW hn fuel _ _ ((Nat.mul_div_le _ _).trans_lt hlt) (fun j hj hset => ?_) hr
  rw [firstWord_getLsbD hW start j hj, Bool.and_eq_true] at hset
  exact hset.2

end

theorem findNextBit_spec (hW : W = 32 ∨ W = 64) {addr : ℕ → BitVec W} {nbits start fuel : ℕ}
    (hn : nbits + W ≤ 2 ^ W) (hf : nbits < fuel) :
    findNextBit addr nbits start fuel = some (Bitmap.next (bit addr) nbits start) := by
  have hbits : sought addr none 0 = bit addr := by
    funext i
    simp [sought, fetch, bit]
  unfold findNextBit
  rw [findNextBitIn_spec hW hn hf, hbits]

theorem sought_zero (hW : W = 32 ∨ W = 64) (addr : ℕ → BitVec W) :
    sought addr none (BitVec.allOnes W) = fun i => ! bit addr i := by
  funext i
  have := Nat.mod_lt i (show 0 < W by omega)
  simp [sought, fetch, bit, this]

theorem findNextZeroBit_spec (hW : W = 32 ∨ W = 64) {addr : ℕ → BitVec W} {nbits start fuel : ℕ}
    (hn : nbits + W ≤ 2 ^ W) (hf : nbits < fuel) : findNextZeroBit addr nbits start fuel =
      some (Bitmap.next (fun i => ! bit addr i) nbits start) := by
  unfold findNextZeroBit
  rw [findNextBitIn_spec hW hn hf, sought_zero hW]

/-! ### Alignment -/

section

variable {K off x a k : ℕ}

end

/-! ### The area -/

/-- The parameters that the claim allows, with `alignMask + 1` a power of two. -/
structure Args (W size start nr alignMask alignOffset : ℕ) : Prop where
  size : size < 2 ^ W
  nr_pos : 0 < nr
  mask : ∃ k, alignMask + 1 = 2 ^ k
  sum : start + nr + alignMask + alignOffset < 2 ^ W

/-- `nr` clear bits below `size`, from an aligned index on. -/
def IsArea (map : ℕ → BitVec W) (size nr alignMask alignOffset i : ℕ) : Prop :=
  alignMask + 1 ∣ i + alignOffset ∧ Bitmap.Clear (bit map) size nr i

/-- The result of a search from `lo` on: the first area, or more than `size`. -/
def Found (map : ℕ → BitVec W) (size nr alignMask alignOffset lo r : ℕ) : Prop :=
  ((∃ i ≥ lo, IsArea map size nr alignMask alignOffset i) →
    IsLeast {i | lo ≤ i ∧ IsArea map size nr alignMask alignOffset i} r) ∧
  ((¬ ∃ i ≥ lo, IsArea map size nr alignMask alignOffset i) → size < r)

/-- No index that the search computes leaves the word. -/
def InWord (W size start nr alignMask alignOffset : ℕ) : Prop :=
  size ≤ start ∨ size + W ≤ 2 ^ W ∧
    (∃ a, size ≤ a ∧ a < 2 ^ W ∧ alignMask + 1 ∣ a + alignOffset) ∧
    ∀ a, start ≤ a → a ≤ size → alignMask + 1 ∣ a + alignOffset → a + nr < 2 ^ W

section

variable {map : ℕ → BitVec W} {size start nr alignMask alignOffset fuel n x : ℕ}

theorem Args.bounds (h : Args W size start nr alignMask alignOffset) :
    ∃ k ≤ W, alignMask = 2 ^ k - 1 ∧ alignOffset < 2 ^ W := by
  obtain ⟨k, hk⟩ := h.mask
  have hsum := h.sum
  have hpos := h.nr_pos
  refine ⟨k, ?_, by omega, by omega⟩
  by_contra hlt
  have := Nat.pow_le_pow_right (show 0 < 2 by decide) (show W ≤ k by omega)
  omega

/-- The rounds from an index on end, whatever the fuel, if only it is enough. -/
def Ends (map : ℕ → BitVec W) (size nr alignMask alignOffset lo r : ℕ) : Prop :=
  Found map size nr alignMask alignOffset lo r ∧ ∀ fuel > size, ∀ n > size - lo,
    zeroAreaLoop map size nr alignMask alignOffset fuel n lo = some r

/-- A bitmap with all bits set. -/
def full (W : ℕ) : ℕ → BitVec W := fun _ => BitVec.allOnes W

end

end HardStack.BitmapBasic.Search
