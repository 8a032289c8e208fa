import Mathlib

/-! # Numerals

The **numeral** of a number in a base is its digits, least significant first, with one `0` for zero.
Its first digits are the **low digits**, which are as many as asked for; what comes after them is the
numeral of the quotient. A conversion in chunks emits low digits while the quotient is not zero. -/

namespace HardStack.Lib.Numeral

/-- The digits without leading zeros; one digit for zero. -/
def numeral (b n : ℕ) : List ℕ := if n = 0 then [0] else Nat.digits b n

/-- The `k` low digits. -/
def lowDigits (b : ℕ) : ℕ → ℕ → List ℕ
  | 0, _ => []
  | k + 1, n => n % b :: lowDigits b k (n / b)

variable {b : ℕ}

@[simp] theorem numeral_zero : numeral b 0 = [0] := rfl

theorem numeral_of_lt {n : ℕ} (hn : n < b) : numeral b n = [n] := by
  unfold numeral
  split_ifs with h
  · rw [h]
  · exact Nat.digits_of_lt b n h hn

theorem numeral_of_le (hb : 1 < b) {n : ℕ} (hn : b ≤ n) : numeral b n = n % b :: numeral b (n / b) := by
  have hpos : n / b ≠ 0 := (Nat.div_pos hn (by omega)).ne'
  unfold numeral
  rw [if_neg (by omega), if_neg hpos, Nat.digits_eq_cons_digits_div hb (by omega)]

theorem numeral_ne_nil (n : ℕ) : numeral b n ≠ [] := by
  unfold numeral
  split_ifs with h
  · simp
  · exact Nat.digits_ne_nil_iff_ne_zero.mpr h

theorem length_numeral_le (hb : 1 < b) {k n : ℕ} (hk : 0 < k) (hn : n < b ^ k) :
    (numeral b n).length ≤ k := by
  unfold numeral
  split_ifs with h
  · exact hk
  · exact (Nat.digits_length_le_iff hb n).mpr hn

theorem lt_of_mem_numeral (hb : 1 < b) {n d : ℕ} (hd : d ∈ numeral b n) : d < b := by
  unfold numeral at hd
  split_ifs at hd with h
  · rw [List.mem_singleton.mp hd]; omega
  · exact Nat.digits_lt_base hb hd

/-- The numeral denotes the number. -/
theorem ofDigits_numeral (n : ℕ) : Nat.ofDigits b (numeral b n) = n := by
  unfold numeral
  split_ifs with h
  · simp [h]
  · exact Nat.ofDigits_digits b n

/-- There is no leading zero but that of zero. -/
theorem getLast_numeral_ne_zero {n : ℕ} (hn : n ≠ 0) : (numeral b n).getLast (numeral_ne_nil n) ≠ 0 := by
  have h : numeral b n = Nat.digits b n := if_neg hn
  simp only [h]
  exact Nat.getLast_digit_ne_zero b hn

/-! ### Low digits -/

@[simp] theorem length_lowDigits (k n : ℕ) : (lowDigits b k n).length = k := by
  induction k generalizing n with
  | zero => rfl
  | succ k ih => simp [lowDigits, ih]

theorem lowDigits_add (k m n : ℕ) :
    lowDigits b (k + m) n = lowDigits b k n ++ lowDigits b m (n / b ^ k) := by
  induction k generalizing n with
  | zero => simp [lowDigits]
  | succ k ih =>
    rw [show k + 1 + m = (k + m) + 1 from by omega, lowDigits, lowDigits, ih, Nat.div_div_eq_div_mul,
      pow_succ', List.cons_append]

/-- The low digits do not see what is above them. -/
theorem lowDigits_mod (k n : ℕ) : lowDigits b k (n % b ^ k) = lowDigits b k n := by
  induction k generalizing n with
  | zero => rfl
  | succ k ih =>
    rw [lowDigits, lowDigits, pow_succ', Nat.mod_mul_right_div_self, ih,
      Nat.mod_mod_of_dvd n (Dvd.intro _ rfl)]

/-- A large number has its low digits first, and then the numeral of the quotient. -/
theorem numeral_eq_append (hb : 1 < b) (k : ℕ) {n : ℕ} (hn : b ^ k ≤ n) :
    numeral b n = lowDigits b k n ++ numeral b (n / b ^ k) := by
  induction k generalizing n with
  | zero => simp [lowDigits]
  | succ k ih =>
    have hle : b ^ k ≤ n / b := by
      rw [Nat.le_div_iff_mul_le (by omega)]
      rwa [pow_succ] at hn
    have hbn : b ≤ n := le_trans (Nat.le_self_pow (by omega) b) hn
    rw [numeral_of_le hb hbn, ih hle, lowDigits, List.cons_append, Nat.div_div_eq_div_mul, pow_succ']

end HardStack.Lib.Numeral
