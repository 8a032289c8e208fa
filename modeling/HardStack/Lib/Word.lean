import Mathlib

/-! # Words of `W` bits

Unsigned arithmetic modulo `2 ^ W`, and rounding an address up to a power of two the way C code does
it with a mask. The mask is exact; the addition before it may wrap. -/

namespace HardStack.Lib.Word

/-- Two pointers that are the same, or both `NULL`. -/
theorem eq_of_pointers {u v : ℕ} (h : ∀ a, (u = a ∧ a ≠ 0) ↔ v = a ∧ a ≠ 0) : u = v := by
  by_cases hu : u = 0
  · by_contra hne
    exact hne ((h v).mpr ⟨rfl, fun hv => hne (hu.trans hv.symm)⟩).1
  · exact ((h u).mp ⟨rfl, hu⟩).1.symm

/-- `~x` on `W` bits. -/
def notW (W x : ℕ) : ℕ := 2 ^ W - 1 - x

/-- `((x) + (a) - 1) & ~((a) - 1)` on `W` bits. -/
def alignUp (W x a : ℕ) : ℕ := ((x + a - 1) % 2 ^ W) &&& notW W (a - 1)

/-- Masking with `~(2 ^ k - 1)` rounds down to a multiple of `2 ^ k`. -/
theorem and_notW {W k y : ℕ} (hk : k ≤ W) (hy : y < 2 ^ W) :
    y &&& notW W (2 ^ k - 1) = 2 ^ k * (y / 2 ^ k) := by
  have hpos : 0 < 2 ^ k := by positivity
  have hle : 2 ^ k ≤ 2 ^ W := Nat.pow_le_pow_right (by omega) hk
  have hmask : notW W (2 ^ k - 1) = 2 ^ W - (2 ^ k - 1 + 1) := by unfold notW; omega
  refine Nat.eq_of_testBit_eq fun i => ?_
  rw [Nat.testBit_and, hmask, Nat.testBit_two_pow_sub_succ (by omega), Nat.testBit_two_pow_sub_one,
    Nat.testBit_two_pow_mul, Nat.testBit_div_two_pow]
  by_cases hik : i < k
  · simp [hik, show ¬ k ≤ i by omega]
  · by_cases hiW : i < W
    · simp [hik, hiW, show k ≤ i by omega]
    · have hbit : y.testBit i = false :=
        Nat.testBit_lt_two_pow (hy.trans_le (Nat.pow_le_pow_right (by omega) (by omega)))
      simp [hbit, show k ≤ i by omega]

theorem alignUp_eq {W k : ℕ} (hk : k ≤ W) (x : ℕ) :
    alignUp W x (2 ^ k) = 2 ^ k * (((x + 2 ^ k - 1) % 2 ^ W) / 2 ^ k) :=
  and_notW hk (Nat.mod_lt _ (by positivity))

theorem alignUp_dvd {W k : ℕ} (hk : k ≤ W) (x : ℕ) : 2 ^ k ∣ alignUp W x (2 ^ k) :=
  ⟨_, alignUp_eq hk x⟩

theorem alignUp_lt {W k : ℕ} (hk : k ≤ W) (x : ℕ) : alignUp W x (2 ^ k) < 2 ^ W := by
  rw [alignUp_eq hk]
  exact (Nat.mul_div_le _ _).trans_lt (Nat.mod_lt _ (by positivity))

/-- Where the addition does not wrap, the result is the least multiple from `x` on. -/
theorem le_alignUp {W k x : ℕ} (hk : k ≤ W) (h : x + 2 ^ k ≤ 2 ^ W) : x ≤ alignUp W x (2 ^ k) := by
  have hpos : 0 < 2 ^ k := by positivity
  rw [alignUp_eq hk, Nat.mod_eq_of_lt (by omega)]
  have hdm := Nat.div_add_mod (x + 2 ^ k - 1) (2 ^ k)
  have hm := Nat.mod_lt (x + 2 ^ k - 1) hpos
  omega

end HardStack.Lib.Word
