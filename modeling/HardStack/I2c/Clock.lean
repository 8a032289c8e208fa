import Mathlib

/-! # The clock of the bus: `Device-Driver/i2c/Bus/kernel/i2c_bus.c`

The three callbacks of `I2C_demo_clk_ops`. An `unsigned long` has `W` bits; a division by zero is no
result (`none`). -/

namespace HardStack.I2c.Clock

variable {W rate parentRate divider d : ℕ}

def cdivMin : ℕ := 0x0002
def cdivMax : ℕ := 0xFFFE
def einval : ℤ := 22

/-- The registers that the callbacks write: `I2C_DEMO_DIV`, `I2C_DEMO_DEL` and `I2C_DEMO_CLKT`. -/
structure Regs where
  div : ℕ
  del : ℕ
  clkt : ℕ
  deriving DecidableEq

/-- An `int` or a `long` taken for a `u32`. -/
def toU32 (x : ℤ) : ℕ := (x % 4294967296).toNat

/-- An `unsigned long` returned as a `long`. -/
def toLong (W x : ℕ) : ℤ := if x < 2 ^ (W - 1) then x else x - 2 ^ W

/-- `DIV_ROUND_UP(n, d)`, computed as an `unsigned long`. -/
def divRoundUp (W n d : ℕ) : Option ℕ := if d = 0 then none else some ((n + d - 1) % 2 ^ W / d)

/-- The step of `I2C_demo_calc_divider` for a divider with the lowest bit set. -/
def incrementOdd (divider : ℕ) : ℕ := if divider % 2 = 1 then (divider + 1) % 2 ^ 32 else divider

/-- `I2C_demo_calc_divider`. -/
def calcDivider (W rate parentRate : ℕ) : Option ℤ := do
  let quotient ← divRoundUp W parentRate rate
  let divider := incrementOdd (quotient % 2 ^ 32)
  if divider < cdivMin ∨ cdivMax < divider then some (-einval) else some divider

/-- `FEDL` and `REDL`, in `I2C_DEMO_DEL`. -/
def fedl (divider : ℕ) : ℕ := max (divider / 16) 1
def redl (divider : ℕ) : ℕ := max (divider / 4) 1

def clkTout (W rate : ℕ) : ℕ :=
  if 0xffff * 1000 / 35 < rate then 0xffff else 35 * rate % 2 ^ W / 1000 % 2 ^ 32

/-- `I2C_demo_set_rate`: the result, and the registers afterwards. -/
def setRate (W rate parentRate : ℕ) (regs : Regs) : Option (ℤ × Regs) := do
  let divider := toU32 (← calcDivider W rate parentRate)
  if divider = toU32 (-einval) then some (-einval, regs)
  else some (0, ⟨divider, fedl divider * 2 ^ 16 % 2 ^ 32 ||| redl divider, clkTout W rate⟩)

/-- `I2C_demo_round_rate`. -/
def roundRate (W rate parentRate : ℕ) : Option ℤ := do
  let divider := toU32 (← calcDivider W rate parentRate)
  let rounded ← divRoundUp W parentRate divider
  some (toLong W rounded)

/-- `I2C_demo_recalc_rate`. -/
def recalcRate (W parentRate : ℕ) (regs : Regs) : Option ℕ := divRoundUp W parentRate regs.div

/-! ### The divider -/

/-- The rates that the divider can be set for: the parent's rate is neither zero nor too high for the
divider, and the rounding division does not overflow. -/
def InRange (W rate parentRate : ℕ) : Prop :=
  0 < parentRate ∧ parentRate ≤ cdivMax * rate ∧ parentRate + rate ≤ 2 ^ W

instance : Decidable (InRange W rate parentRate) := inferInstanceAs (Decidable (_ ∧ _ ∧ _))

/-- A divider as the register takes it. -/
structure Divides (rate parentRate divider : ℕ) : Prop where
  even : divider % 2 = 0
  lo : cdivMin ≤ divider
  hi : divider ≤ cdivMax
  covers : parentRate ≤ divider * rate

theorem divRoundUp_le_iff (hd : 0 < d) (n m : ℕ) : (n + d - 1) / d ≤ m ↔ n ≤ m * d := by
  rw [Nat.div_le_iff_le_mul_add_pred hd, Nat.mul_comm]
  omega

theorem incrementOdd_refused_iff (h : d < 2 ^ 32) :
    incrementOdd d < cdivMin ∨ cdivMax < incrementOdd d ↔ d = 0 ∨ cdivMax < d := by
  unfold incrementOdd cdivMin cdivMax
  rcases Nat.mod_two_eq_zero_or_one d with h2 | h2
  · rw [if_neg (by omega)]
    omega
  · rw [if_pos h2]
    omega

theorem incrementOdd_accepted (h : d ≤ cdivMax) : incrementOdd d = d + d % 2 := by
  unfold cdivMax at h
  unfold incrementOdd
  rcases Nat.mod_two_eq_zero_or_one d with h2 | h2
  · rw [if_neg (by omega), h2, Nat.add_zero]
  · rw [if_pos h2, h2, Nat.mod_eq_of_lt (by omega)]

theorem calcDivider_eq (hrate : 1 ≤ rate) {quotient : ℕ}
    (hq : (parentRate + rate - 1) % 2 ^ W / rate = quotient) (hlt : quotient < 2 ^ 32) :
    calcDivider W rate parentRate =
      if quotient = 0 ∨ cdivMax < quotient then some (-einval)
      else some ((quotient + quotient % 2 : ℕ) : ℤ) := by
  unfold calcDivider divRoundUp
  rw [if_neg (by omega), hq]
  show (if incrementOdd (quotient % 2 ^ 32) < cdivMin ∨ cdivMax < incrementOdd (quotient % 2 ^ 32) then _
    else _) = _
  rw [Nat.mod_eq_of_lt hlt]
  by_cases h : quotient = 0 ∨ cdivMax < quotient
  · rw [if_pos ((incrementOdd_refused_iff hlt).mpr h), if_pos h]
  · rw [if_neg (mt (incrementOdd_refused_iff hlt).mp h), if_neg h, incrementOdd_accepted (by omega)]

/-- **The divider** is a good one for the rates in range, and the error otherwise. -/
theorem calcDivider_spec (hW : 32 ≤ W) (hrate : 1 ≤ rate) (hword : rate < 2 ^ W)
    (hparent : parentRate < 2 ^ 32) :
    if InRange W rate parentRate then
      ∃ divider : ℕ, calcDivider W rate parentRate = some (divider : ℤ) ∧ Divides rate parentRate divider
    else calcDivider W rate parentRate = some (-einval) := by
  have hpow : 2 ^ 32 ≤ 2 ^ W := Nat.pow_le_pow_right (by decide) hW
  by_cases hwrap : parentRate + rate ≤ 2 ^ W
  · have hq : (parentRate + rate - 1) % 2 ^ W / rate = (parentRate + rate - 1) / rate := by
      rw [Nat.mod_eq_of_lt (by omega)]
    have hle := divRoundUp_le_iff hrate parentRate
    have hquot : (parentRate + rate - 1) / rate < 2 ^ 32 :=
      lt_of_le_of_lt ((hle parentRate).mpr (Nat.le_mul_of_pos_right _ hrate)) hparent
    have hzero : (parentRate + rate - 1) / rate = 0 ↔ parentRate = 0 := by
      rw [← Nat.le_zero, hle, Nat.zero_mul, Nat.le_zero]
    have hmax : cdivMax < (parentRate + rate - 1) / rate ↔ cdivMax * rate < parentRate := by
      rw [← Nat.not_le, hle, Nat.not_le]
    have hrefused : (parentRate + rate - 1) / rate = 0 ∨ cdivMax < (parentRate + rate - 1) / rate ↔
        ¬ InRange W rate parentRate := by
      rw [hzero, hmax]
      unfold InRange
      omega
    rw [calcDivider_eq hrate hq hquot]
    by_cases hin : InRange W rate parentRate
    · have haccepted := mt hrefused.mp (not_not.mpr hin)
      rw [if_pos hin, if_neg haccepted]
      unfold cdivMax at haccepted
      generalize (parentRate + rate - 1) / rate = quotient at haccepted hle ⊢
      refine ⟨_, rfl, by omega, ?_, ?_, ?_⟩
      · unfold cdivMin
        omega
      · unfold cdivMax
        omega
      · exact ((hle _).mp le_rfl).trans (Nat.mul_le_mul_right _ (Nat.le_add_right _ _))
    · rw [if_neg hin, if_pos (hrefused.mpr hin)]
  · have hq : (parentRate + rate - 1) % 2 ^ W / rate = 0 := by
      rw [Nat.mod_eq_sub_mod (by omega), Nat.mod_eq_of_lt (by omega)]
      exact Nat.div_eq_of_lt (by omega)
    rw [if_neg (fun hin => hwrap hin.2.2), calcDivider_eq hrate hq (by decide), if_pos (Or.inl rfl)]

/-! ### The callbacks -/

/-- What the registers promise of `rate`: the divider and the delays fit, and so does the timeout. -/
structure Written (rate parentRate : ℕ) (regs : Regs) : Prop where
  divides : Divides rate parentRate regs.div
  delays : ∃ fedl redl, regs.del = fedl * 2 ^ 16 + redl ∧ redl < 2 ^ 16 ∧ fedl < 2 ^ 16 ∧
    1 ≤ fedl ∧ fedl ≤ regs.div / 2 ∧ 1 ≤ redl ∧ redl ≤ regs.div / 2
  timeout : regs.clkt ≤ 0xffff

/-- The callbacks agree on the two rates: no call divides by zero, and after a success the rate that
was announced is the one that is computed from the registers. -/
def Agree (W rate parentRate : ℕ) : Prop :=
  ∀ regs, ∃ ret regs' announced, setRate W rate parentRate regs = some (ret, regs') ∧
    roundRate W rate parentRate = some announced ∧
    (ret = 0 → ∃ actual : ℕ, recalcRate W parentRate regs' = some actual ∧ announced = actual ∧
      actual ≤ rate ∧ Written rate parentRate regs') ∧
    (ret ≠ 0 → announced < 0)

theorem toU32_natCast (h : d < 2 ^ 32) : toU32 d = d := by
  unfold toU32
  omega

theorem clkTout_le (hW : 32 ≤ W) : clkTout W rate ≤ 0xffff := by
  have hpow : 2 ^ 32 ≤ 2 ^ W := Nat.pow_le_pow_right (by decide) hW
  unfold clkTout
  by_cases h : 0xffff * 1000 / 35 < rate
  · rw [if_pos h]
  · have hle : 35 * rate % 2 ^ W ≤ 35 * rate := Nat.mod_le _ _
    rw [if_neg h]
    omega

/-- **A good divider** is written, and both rates are computed from it. -/
theorem setRate_divides (hW : 32 ≤ W) (hparent : parentRate < 2 ^ 32) (regs : Regs)
    (hcalc : calcDivider W rate parentRate = some (d : ℤ)) (hd : Divides rate parentRate d) :
    ∃ (regs' : Regs) (actual : ℕ), setRate W rate parentRate regs = some (0, regs') ∧
      roundRate W rate parentRate = some (actual : ℤ) ∧ recalcRate W parentRate regs' = some actual ∧
      actual ≤ rate ∧ Written rate parentRate regs' := by
  have hpow : 2 ^ 32 ≤ 2 ^ W := Nat.pow_le_pow_right (by decide) hW
  have hlo : 2 ≤ d := hd.lo
  have hhi : d ≤ 65534 := hd.hi
  have hdiv : divRoundUp W parentRate d = some ((parentRate + d - 1) % 2 ^ W / d) := if_neg (by omega)
  have hdel : fedl d * 2 ^ 16 % 2 ^ 32 ||| redl d = fedl d * 2 ^ 16 + redl d := by
    unfold fedl redl
    rw [Nat.mod_eq_of_lt (by omega), Nat.mul_comm, Nat.two_pow_add_eq_or_of_lt (by omega)]
  refine ⟨⟨d, fedl d * 2 ^ 16 + redl d, clkTout W rate⟩, (parentRate + d - 1) % 2 ^ W / d, ?_, ?_, hdiv,
    ?_, ⟨hd, ⟨fedl d, redl d, rfl, ?_⟩, clkTout_le hW⟩⟩
  · rw [setRate, hcalc]
    show (if toU32 d = toU32 (-einval) then _ else _) = _
    rw [toU32_natCast (by omega), if_neg (by rw [show toU32 (-einval) = 4294967274 from by decide]; omega), hdel]
  · rw [roundRate, hcalc]
    show (divRoundUp W parentRate (toU32 d)).bind _ = _
    rw [toU32_natCast (by omega), hdiv]
    have hhalf : (parentRate + d - 1) % 2 ^ W / d < 2 ^ (W - 1) := by
      have hmod := Nat.mod_lt (parentRate + d - 1) (show 0 < 2 ^ W by omega)
      have htwo : 2 ^ W = 2 * 2 ^ (W - 1) := by
        rw [← pow_succ', Nat.sub_add_cancel (by omega)]
      rw [Nat.div_lt_iff_lt_mul (by omega)]
      calc (parentRate + d - 1) % 2 ^ W < 2 ^ (W - 1) * 2 := by omega
        _ ≤ 2 ^ (W - 1) * d := Nat.mul_le_mul_left _ hlo
    exact congrArg some (if_pos hhalf)
  · calc (parentRate + d - 1) % 2 ^ W / d ≤ (parentRate + d - 1) / d :=
          Nat.div_le_div_right (Nat.mod_le _ _)
      _ ≤ rate := (divRoundUp_le_iff (by omega) _ _).mpr (by rw [Nat.mul_comm]; exact hd.covers)
  · unfold fedl redl
    show _ ∧ _ ∧ _ ∧ _ ≤ d / 2 ∧ _ ∧ _ ≤ d / 2
    omega

/-- The error is taken for a divider, and the rate that is announced is no error. -/
theorem roundRate_error (hW : 32 ≤ W) (hparent : parentRate < 2 ^ 32)
    (hcalc : calcDivider W rate parentRate = some (-einval)) :
    ∃ announced, roundRate W rate parentRate = some announced ∧ 0 ≤ announced := by
  have hpow : 2 ^ 32 ≤ 2 ^ W := Nat.pow_le_pow_right (by decide) hW
  have hhalf : 2 ^ 31 ≤ 2 ^ (W - 1) := Nat.pow_le_pow_right (by decide) (by omega)
  have hsmall : (parentRate + 4294967274 - 1) % 2 ^ W / 4294967274 < 2 ^ (W - 1) := by
    have := Nat.mod_le (parentRate + 4294967274 - 1) (2 ^ W)
    omega
  refine ⟨toLong W ((parentRate + 4294967274 - 1) % 2 ^ W / 4294967274), ?_, ?_⟩
  · rw [roundRate, hcalc]
    rfl
  · rw [toLong, if_pos hsmall]
    exact Int.natCast_nonneg _

/-- **The callbacks agree** exactly on the rates in range: elsewhere the rate is refused by
`I2C_demo_set_rate` and announced by `I2C_demo_round_rate`. -/
theorem agree_iff (hW : W = 32 ∨ W = 64) (hrate : 1 ≤ rate) (hword : rate < 2 ^ W)
    (hparent : parentRate < 2 ^ 32) : Agree W rate parentRate ↔ InRange W rate parentRate := by
  have hW : 32 ≤ W := by omega
  have hspec := calcDivider_spec hW hrate hword hparent
  by_cases hin : InRange W rate parentRate
  · rw [if_pos hin] at hspec
    obtain ⟨d, hcalc, hd⟩ := hspec
    refine iff_of_true (fun regs => ?_) hin
    obtain ⟨regs', actual, hset, hround, hrecalc, hle, hwritten⟩ := setRate_divides hW hparent regs hcalc hd
    exact ⟨0, regs', actual, hset, hround, fun _ => ⟨actual, hrecalc, rfl, hle, hwritten⟩,
      fun h => absurd rfl h⟩
  · rw [if_neg hin] at hspec
    refine iff_of_false (fun hagree => ?_) hin
    obtain ⟨ret, regs', announced, hset, hround, -, herror⟩ := hagree ⟨0, 0, 0⟩
    obtain ⟨announced', hround', hpos⟩ := roundRate_error hW hparent hspec
    have hret : ret = -einval := by
      rw [setRate, hspec] at hset
      exact (congrArg Prod.fst (Option.some.inj hset)).symm
    have hneg := herror (by rw [hret]; decide)
    rw [hround] at hround'
    cases hround'
    omega

theorem agree_iff_standard_mode : 1 ≤ 100000 ∧ Agree 64 100000 250000000 ∧ InRange 64 100000 250000000 := by
  have hin : InRange 64 100000 250000000 := by
    unfold InRange cdivMax
    omega
  exact ⟨by omega, (agree_iff (Or.inr rfl) (by omega) (by omega) (by omega)).mpr hin, hin⟩

/-- A rate of one below a parent of 250 MHz is refused, and announced as one. -/
theorem not_agree_slow : setRate 64 1 250000000 ⟨0, 0, 0⟩ = some (-einval, ⟨0, 0, 0⟩) ∧
    roundRate 64 1 250000000 = some 1 ∧ ¬ Agree 64 1 250000000 := by
  have hset : setRate 64 1 250000000 ⟨0, 0, 0⟩ = some (-einval, ⟨0, 0, 0⟩) := by decide +kernel
  have hround : roundRate 64 1 250000000 = some 1 := by decide +kernel
  refine ⟨hset, hround, fun hagree => ?_⟩
  obtain ⟨ret, regs', announced, hset', hround', -, herror⟩ := hagree ⟨0, 0, 0⟩
  rw [hset] at hset'
  rw [hround] at hround'
  cases hset'
  cases hround'
  exact absurd (herror (by decide)) (by decide)

end HardStack.I2c.Clock
