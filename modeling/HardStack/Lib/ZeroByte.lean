import Mathlib

/-! # Zero bytes of a word

Subtracting a word of ones from a word of `n` bytes borrows from a byte only out of a zero byte below
it. So the top bits that are set in the difference and not in the word are below the first zero byte no
flag, and one at it; above it they may be anything. Isolating the bits below the lowest flag counts the
bytes before the first zero byte. -/

namespace HardStack.Lib.ZeroByte

variable {n i j k : ℕ} {bs : List ℕ}

/-- The word of `n` bytes that are one. -/
def ones (n : ℕ) : ℕ := Nat.ofDigits 256 (List.replicate n 1)

/-- A word less the word of ones. -/
def lessOnes (n a : ℕ) : ℕ := (a + 256 ^ n - ones n) % 256 ^ n

theorem ones_succ (n : ℕ) : ones (n + 1) = 1 + 256 * ones n := by
  unfold ones
  rw [List.replicate_succ, Nat.ofDigits_cons]

theorem ones_eq : ∀ n : ℕ, 255 * ones n + 1 = 256 ^ n
  | 0 => rfl
  | n + 1 => by
    have := ones_eq n
    rw [ones_succ, pow_succ]
    omega

/-- Without a zero byte at the bottom the subtraction goes byte by byte. -/
theorem lessOnes_cons {b a : ℕ} (hpos : 0 < b) (hb : b < 256) :
    lessOnes (n + 1) (b + 256 * a) = b - 1 + 256 * lessOnes n a := by
  have hones := ones_eq n
  have hle : ones n ≤ 256 ^ n := by omega
  unfold lessOnes
  have hsum : b + 256 * a + 256 ^ (n + 1) - ones (n + 1) = b - 1 + 256 * (a + 256 ^ n - ones n) := by
    rw [ones_succ, pow_succ]
    omega
  rw [hsum, pow_succ, mul_comm (256 ^ n) 256, Nat.mod_mul]
  have hmod : (b - 1 + 256 * (a + 256 ^ n - ones n)) % 256 = b - 1 := by omega
  have hdiv : (b - 1 + 256 * (a + 256 ^ n - ones n)) / 256 = a + 256 ^ n - ones n := by omega
  rw [hmod, hdiv]

/-- A zero byte at the bottom becomes all ones. -/
theorem lessOnes_zero (a : ℕ) : lessOnes (n + 1) (0 + 256 * a) % 256 = 255 := by
  have hones := ones_eq n
  unfold lessOnes
  rw [ones_succ, pow_succ, Nat.mod_mul_left_mod]
  omega

theorem testBit_low {a : ℕ} : a.testBit 7 = decide (a % 256 / 128 = 1) := by
  rw [Nat.testBit_eq_decide_div_mod_eq]
  exact decide_eq_decide.mpr (by omega)

theorem testBit_high {b a : ℕ} (hb : b < 256) : (b + 256 * a).testBit (8 * (j + 1) + 7) = a.testBit (8 * j + 7) := by
  rw [show 8 * (j + 1) + 7 = 8 * j + 7 + 8 by omega, ← Nat.testBit_div_two_pow,
    show (b + 256 * a) / 2 ^ 8 = a by omega]

/-- **No flag** at a byte with no zero byte up to it. -/
theorem testBit_of_ne_zero : ∀ {bs : List ℕ} {j : ℕ}, (∀ b ∈ bs, b < 256) → j < bs.length →
    (∀ i ≤ j, bs[i]? ≠ some 0) → (lessOnes bs.length (Nat.ofDigits 256 bs)).testBit (8 * j + 7) = true →
    (Nat.ofDigits 256 bs).testBit (8 * j + 7) = true
  | [], j, _, hj, _ => absurd hj (Nat.not_lt_zero j)
  | b :: bs, j, hlt, hj, hne => by
    obtain ⟨hb, hlt⟩ := List.forall_mem_cons.mp hlt
    have hpos : 0 < b := by
      have := hne 0 (Nat.zero_le j)
      rw [List.getElem?_cons_zero] at this
      exact Nat.pos_of_ne_zero fun h => this (congrArg some h)
    rw [List.length_cons, Nat.ofDigits_cons, lessOnes_cons hpos hb]
    rcases j with _ | j
    · rw [testBit_low, testBit_low, decide_eq_true_eq, decide_eq_true_eq]
      omega
    · rw [testBit_high (by omega), testBit_high hb]
      refine testBit_of_ne_zero hlt (Nat.lt_of_succ_lt_succ hj) fun i hi => ?_
      have := hne (i + 1) (by omega)
      rwa [List.getElem?_cons_succ] at this

/-- **A flag** at the first zero byte. -/
theorem testBit_of_first_zero : ∀ {bs : List ℕ} {k : ℕ}, (∀ b ∈ bs, b < 256) →
    (∀ i < k, bs[i]? ≠ some 0) → bs[k]? = some 0 →
    (lessOnes bs.length (Nat.ofDigits 256 bs)).testBit (8 * k + 7) = true ∧
      (Nat.ofDigits 256 bs).testBit (8 * k + 7) = false
  | b :: bs, 0, _, _, hzero => by
    obtain rfl : b = 0 := Option.some.inj hzero
    rw [List.length_cons, Nat.ofDigits_cons, testBit_low, testBit_low, lessOnes_zero]
    exact ⟨rfl, decide_eq_false (by omega)⟩
  | b :: bs, k + 1, hlt, hne, hzero => by
    obtain ⟨hb, hlt⟩ := List.forall_mem_cons.mp hlt
    have hpos : 0 < b := by
      have := hne 0 (Nat.succ_pos k)
      rw [List.getElem?_cons_zero] at this
      exact Nat.pos_of_ne_zero fun h => this (congrArg some h)
    rw [List.length_cons, Nat.ofDigits_cons, lessOnes_cons hpos hb, testBit_high (by omega),
      testBit_high hb]
    refine testBit_of_first_zero hlt (fun i hi => ?_) hzero
    have := hne (i + 1) (by omega)
    rwa [List.getElem?_cons_succ] at this

/-! ### The lowest flag -/

theorem mod_two_pow_eq_zero (hlow : ∀ j < i, n.testBit j = false) : n % 2 ^ i = 0 := by
  refine Nat.eq_of_testBit_eq fun j => ?_
  rw [Nat.testBit_mod_two_pow, Nat.zero_testBit]
  by_cases hj : j < i
  · rw [hlow j hj, Bool.and_false]
  · rw [decide_eq_false hj, Bool.false_and]

/-- **The bits below the lowest one** that is set. -/
theorem sub_one_and_not {w : ℕ} {x : BitVec w} (hi : x.getLsbD i = true)
    (hlow : ∀ j < i, x.getLsbD j = false) : ((x - 1#w) &&& ~~~x).toNat = 2 ^ i - 1 := by
  have hiw : i < w := BitVec.lt_of_getLsbD hi
  have hx := x.isLt
  obtain ⟨q, hq⟩ : ∃ q, x.toNat = 2 ^ i * q := ⟨_, (Nat.mul_div_cancel' (Nat.dvd_of_mod_eq_zero
    (mod_two_pow_eq_zero hlow))).symm⟩
  have hodd : q % 2 = 1 := by
    have hbit : x.toNat.testBit i = true := hi
    rw [hq, Nat.testBit_two_pow_mul, decide_eq_true le_rfl, Bool.true_and, Nat.sub_self] at hbit
    simpa using hbit
  have hpos : 0 < 2 ^ i := by positivity
  have hsub : (x - 1#w).toNat = 2 ^ i * (q - 1) + (2 ^ i - 1) := by
    have h1 : 2 ^ i * q = 2 ^ i * (q - 1) + 2 ^ i := by
      rw [← Nat.mul_succ, Nat.succ_eq_add_one, Nat.sub_add_cancel (by omega)]
    have hone : (1#w).toNat = 1 := Nat.mod_eq_of_lt (Nat.one_lt_two_pow (by omega))
    rw [BitVec.toNat_sub, hone, hq]
    rw [hq] at hx
    rw [show 2 ^ w - 1 + 2 ^ i * q = 2 ^ i * q - 1 + 2 ^ w by omega, Nat.add_mod_right,
      Nat.mod_eq_of_lt (by omega)]
    omega
  refine Nat.eq_of_testBit_eq fun j => ?_
  rw [Nat.testBit_two_pow_sub_one, BitVec.toNat_and, Nat.testBit_and, hsub,
    Nat.testBit_two_pow_mul_add _ (by omega), Nat.testBit_two_pow_sub_one]
  have hnot : (~~~x).toNat.testBit j = (decide (j < w) && !x.getLsbD j) := BitVec.getLsbD_not
  rw [hnot]
  by_cases hj : j < i
  · rw [if_pos hj, hlow j hj, decide_eq_true hj, decide_eq_true (hj.trans hiw)]
    rfl
  · rw [if_neg hj, decide_eq_false hj]
    have hxj : x.getLsbD j = q.testBit (j - i) := by
      show x.toNat.testBit j = _
      rw [hq, Nat.testBit_two_pow_mul, decide_eq_true (not_lt.mp hj), Bool.true_and]
    rw [hxj]
    -- above the lowest bit nothing is borrowed
    rcases Nat.eq_zero_or_pos (j - i) with h0 | hji
    · rw [h0, Nat.testBit_zero, Nat.testBit_zero, hodd, decide_eq_false (show ¬ (q - 1) % 2 = 1 by omega)]
      rfl
    · obtain ⟨m, hm⟩ : ∃ m, j - i = m + 1 := ⟨j - i - 1, by omega⟩
      rw [hm, Nat.testBit_succ, Nat.testBit_succ, show (q - 1) / 2 = q / 2 by omega, Bool.and_comm,
        Bool.and_assoc, Bool.not_and_self, Bool.and_false]

end HardStack.Lib.ZeroByte
