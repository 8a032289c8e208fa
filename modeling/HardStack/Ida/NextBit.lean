import HardStack.Ida.Layout

/-! # The next set bit of a row of tags

`radix_tree_find_next_bit` on the words `node->tags[tag]`, whatever the rest of the memory holds. With
one word in a row the loop of the function is never entered. With two words it is entered once the first
word is used up, and as it leaves `offset` as it is, it does not stop at the end of the row. -/

namespace HardStack.Ida.NextBit

open HardStack.Lib HardStack.Lib.Word HardStack.Radix.Model HardStack.Ida.Model
open HardStack.Ida.Layout (ffs_spec)

variable {W : ℕ} {row : ℕ → BitVec W} {tag offset : ℕ}

/-- Bit `o` of a row of words. -/
def rowBit (row : ℕ → BitVec W) (o : ℕ) : Bool := (row (o / W)).getLsbD (o % W)

/-- The words of `node->tags[tag]`. -/
def HasRow (s : Tree) (n tag : ℕ) (row : ℕ → BitVec W) : Prop :=
  ∀ idx < RADIX_TREE_TAG_LONGS W, (s.node n).tags tag idx = (row idx).toNat

/-- The call ends with the next set bit of the row, whatever the memory outside of the row holds. -/
def FindsNext (row : ℕ → BitVec W) (tag offset : ℕ) : Prop :=
  ∃ N, ∀ fuel ≥ N, ∀ (past : ℕ → ℕ → ℕ) (s : Tree) (n : ℕ), HasRow s n tag row →
    radixTreeFindNextBit W past fuel s n tag offset =
      some (Bitmap.next (rowBit row) RADIX_TREE_MAP_SIZE offset)

theorem tagLongs_eq (hW : W = 32 ∨ W = 64) : RADIX_TREE_TAG_LONGS W = 64 / W := by
  rcases hW with rfl | rfl <;> rfl

/-- A word of the row is what the function reads there. -/
theorem tagsWord_row (hW : W = 32 ∨ W = 64) {past : ℕ → ℕ → ℕ} {s : Tree} {n idx : ℕ}
    (h : HasRow s n tag row) (htag : tag < RADIX_TREE_MAX_TAGS) (hidx : idx < 64 / W) :
    tagsWord W past s n tag idx = (row idx).toNat := by
  have hlt : tag < 3 := htag
  rw [← h idx (by rwa [tagLongs_eq hW])]
  unfold tagsWord
  simp only [tagLongs_eq hW, RADIX_TREE_MAX_TAGS]
  rcases hW with rfl | rfl
  · rw [if_pos (by omega), show (tag * (64 / 32) + idx) / (64 / 32) = tag by omega,
      show (tag * (64 / 32) + idx) % (64 / 32) = idx by omega]
  · rw [if_pos (by omega), show (tag * (64 / 64) + idx) / (64 / 64) = tag by omega,
      show (tag * (64 / 64) + idx) % (64 / 64) = idx by omega]

/-- The set bits of a word from `k` on. -/
theorem shiftedWord_spec (x : BitVec W) (k : ℕ) :
    (x.toNat / 2 ^ k ≠ 0 → k + ffs W (x.toNat / 2 ^ k) < W ∧
      x.getLsbD (k + ffs W (x.toNat / 2 ^ k)) = true ∧
      ∀ j < ffs W (x.toNat / 2 ^ k), x.getLsbD (k + j) = false) ∧
    (x.toNat / 2 ^ k = 0 → ∀ j, x.getLsbD (k + j) = false) := by
  have hbit : ∀ j, x.getLsbD (k + j) = (x.toNat / 2 ^ k).testBit j := by
    intro j
    rw [Nat.testBit_div_two_pow, BitVec.testBit_toNat, Nat.add_comm]
  constructor
  · intro h0
    obtain ⟨-, hset, hclear⟩ := ffs_spec h0 ((Nat.div_le_self _ _).trans_lt x.isLt)
    rw [← hbit] at hset
    refine ⟨BitVec.lt_of_getLsbD hset, hset, fun j hj => ?_⟩
    rw [hbit]
    exact hclear j hj
  · intro h0 j
    rw [hbit, h0, Nat.zero_testBit]

/-- A bit of the word of `offset`. -/
theorem rowBit_add {j : ℕ} (hj : offset % W + j < W) :
    rowBit row (offset + j) = (row (offset / W)).getLsbD (offset % W + j) := by
  have hdiv := Nat.div_add_mod offset W
  have hsum : offset + j = W * (offset / W) + (offset % W + j) := by omega
  unfold rowBit
  rw [hsum, Nat.mul_add_div (by omega), Nat.div_eq_of_lt hj, add_zero, Nat.mul_add_mod, Nat.mod_eq_of_lt hj]

/-- The first word, where it has a bit from `offset` on. -/
theorem next_of_first (hW : W = 32 ∨ W = 64) (ho : offset < 64)
    (h0 : (row (offset / W)).toNat / 2 ^ (offset % W) ≠ 0) :
    Bitmap.next (rowBit row) 64 offset =
      ffs W ((row (offset / W)).toNat / 2 ^ (offset % W)) + offset := by
  obtain ⟨hlt, hset, hclear⟩ := (shiftedWord_spec (row (offset / W)) (offset % W)).1 h0
  generalize ffs W ((row (offset / W)).toNat / 2 ^ (offset % W)) = v at hlt hset hclear ⊢
  rw [Nat.add_comm v]
  refine Bitmap.next_eq (Nat.le_add_right _ _) ?_ (fun i hi hiv => ?_) fun _ => ?_
  · rcases hW with rfl | rfl <;> omega
  · obtain ⟨j, rfl⟩ := Nat.exists_eq_add_of_le hi
    rw [rowBit_add (by omega)]
    exact hclear j (by omega)
  · rw [rowBit_add hlt]
    exact hset

/-- The bits that the first word rules out. -/
theorem clear_of_first (h0 : (row (offset / W)).toNat / 2 ^ (offset % W) = 0) {i : ℕ} (hi : offset ≤ i)
    (hiW : offset % W + (i - offset) < W) : rowBit row i = false := by
  obtain ⟨j, rfl⟩ := Nat.exists_eq_add_of_le hi
  rw [Nat.add_sub_cancel_left] at hiW
  rw [rowBit_add hiW]
  exact (shiftedWord_spec _ _).2 h0 j

/-- The loop runs on as long as the words are `0`. -/
theorem findNextLoop_zero {past : ℕ → ℕ → ℕ} {s : Tree} {n o : ℕ} (ho : o < 64) :
    ∀ (k idx : ℕ), (∀ i > idx, tagsWord W past s n tag i = 0) →
      findNextLoop W past s n tag k idx o = none
  | 0, _, _ => rfl
  | k + 1, idx, h => by
    rw [findNextLoop, if_pos (show o < RADIX_TREE_MAP_SIZE from ho)]
    dsimp only
    rw [h (idx + 1) (Nat.lt_succ_self _), if_neg (by decide)]
    exact findNextLoop_zero ho k (idx + 1) fun i hi => h i (by omega)

/-- A node with this row, and `0` everywhere else. -/
def rowTree (row : ℕ → BitVec W) (tag : ℕ) : Tree where
  gfpMask := 0
  rnode := 0
  node := fun _ => ⟨0, 0, 0, 0, 0, fun _ => 0, fun t idx =>
    if t = tag ∧ idx < RADIX_TREE_TAG_LONGS W then (row idx).toNat else 0⟩
  live := ∅

theorem rowTree_hasRow (row : ℕ → BitVec W) (tag n : ℕ) : HasRow (rowTree row tag) n tag row :=
  fun _ hidx => if_pos ⟨rfl, hidx⟩

/-- The word that the function uses up is the last one, or the next one has a bit. -/
theorem findsNext (hW : W = 32 ∨ W = 64) (htag : tag < RADIX_TREE_MAX_TAGS)
    (h : W = 64 ∨ 32 ≤ offset ∨ ∃ i, offset ≤ i ∧ i < 64 ∧ rowBit row i = true) :
    FindsNext row tag offset := by
  refine ⟨1, fun fuel hfuel past s n hrow => ?_⟩
  obtain ⟨k, rfl⟩ : ∃ k, fuel = k + 1 := ⟨fuel - 1, by omega⟩
  show _ = some (Bitmap.next (rowBit row) 64 offset)
  unfold radixTreeFindNextBit
  by_cases ho : offset < 64
  · have hidx : offset / W < 64 / W := by rcases hW with rfl | rfl <;> omega
    rw [if_pos (show offset < RADIX_TREE_MAP_SIZE from ho)]
    dsimp only
    rw [tagsWord_row hW hrow htag hidx]
    by_cases h0 : (row (offset / W)).toNat / 2 ^ (offset % W) = 0
    · rw [if_neg (not_not.mpr h0)]
      have hclear := fun i hi => clear_of_first (i := i) h0 hi
      rcases hW with rfl | rfl
      · have hmask : (offset + 32) &&& notW 32 (32 - 1) = 32 * ((offset + 32) / 32) :=
          and_notW (W := 32) (k := 5) (by omega) (by omega)
        rw [hmask]
        by_cases hsecond : 32 ≤ offset
        · rw [show 32 * ((offset + 32) / 32) = 64 by omega, findNextLoop, if_neg (by decide)]
          refine congrArg some (Bitmap.next_eq ho.le le_rfl (fun i hi hi' => ?_) fun h => ?_).symm
          · exact hclear i hi (by omega)
          · exact absurd h (lt_irrefl _)
        · obtain ⟨i, hi, hi64, hbit⟩ : ∃ i, offset ≤ i ∧ i < 64 ∧ rowBit row i = true := by
            rcases h with h | h | h
            · exact absurd h (by decide)
            · exact absurd h hsecond
            · exact h
          -- the bit is in the second word, which is the one that the loop reads
          have hword : (row (32 / 32)).toNat / 2 ^ (32 % 32) ≠ 0 := by
            intro hzero
            rcases Nat.lt_or_ge i 32 with hlt | hge
            · rw [hclear i hi (by omega)] at hbit
              cases hbit
            · rw [clear_of_first hzero hge (by omega)] at hbit
              cases hbit
          have hnext := next_of_first (Or.inl rfl) (by decide) hword
          simp only [Nat.reduceDiv, Nat.reduceMod, pow_zero, Nat.div_one] at hword hnext
          rw [show 32 * ((offset + 32) / 32) = 32 by omega, show offset / 32 = 0 by omega, findNextLoop,
            if_pos (by decide)]
          dsimp only
          rw [tagsWord_row (Or.inl rfl) hrow htag (by decide), zero_add, if_pos hword, ← hnext]
          obtain ⟨h1, h2, h3, h4⟩ := Bitmap.next_spec (p := rowBit row) (show 32 ≤ 64 by decide)
          refine congrArg some (Bitmap.next_eq (by omega) h2 (fun j hj hj' => ?_) h4).symm
          rcases Nat.lt_or_ge j 32 with hlt | hge
          · exact hclear j hj (by omega)
          · exact h3 j hge hj'
      · have hmask : (offset + 64) &&& notW 64 (64 - 1) = 64 * ((offset + 64) / 64) :=
          and_notW (W := 64) (k := 6) (by omega) (by omega)
        rw [hmask, show 64 * ((offset + 64) / 64) = 64 by omega, findNextLoop, if_neg (by decide)]
        refine congrArg some (Bitmap.next_eq ho.le le_rfl (fun i hi hi' => ?_) fun h => ?_).symm
        · exact hclear i hi (by omega)
        · exact absurd h (lt_irrefl _)
    · rw [if_pos h0, next_of_first hW ho h0]
  · rw [if_neg (show ¬ offset < RADIX_TREE_MAP_SIZE from ho)]
    unfold Bitmap.next
    rw [if_pos (not_lt.mp ho)]
    rfl

/-- With two words, none of which has a bit from `offset` on, the loop leaves the row. -/
theorem not_findsNext {row : ℕ → BitVec 32} (htag : tag < RADIX_TREE_MAX_TAGS) (ho : offset < 32)
    (h : ∀ i, offset ≤ i → i < 64 → rowBit row i = false) : ¬ FindsNext row tag offset := by
  rintro ⟨N, hN⟩
  have hret := hN N le_rfl (fun _ _ => 0) (rowTree row tag) 0 (rowTree_hasRow row tag 0)
  have hfirst : (row (offset / 32)).toNat / 2 ^ (offset % 32) = 0 := by
    by_contra h0
    obtain ⟨hlt, hset, -⟩ := (shiftedWord_spec (row (offset / 32)) (offset % 32)).1 h0
    have hclear := h _ (Nat.le_add_right offset (ffs 32 ((row (offset / 32)).toNat / 2 ^ (offset % 32))))
      (by omega)
    rw [rowBit_add hlt, hset] at hclear
    cases hclear
  have hsecond : (row 1).toNat = 0 := by
    by_contra h0
    obtain ⟨hlt, hset, -⟩ := (shiftedWord_spec (row 1) 0).1 (by simpa using h0)
    have hclear := h (32 + (0 + ffs 32 ((row 1).toNat / 2 ^ 0))) (by omega) (by omega)
    rw [rowBit_add (by simpa using hlt)] at hclear
    simp only [Nat.reduceDiv, Nat.reduceMod, zero_add] at hclear hset
    rw [hset] at hclear
    cases hclear
  -- past the first word there is nothing but zeros
  have hzero : ∀ i > 0, tagsWord 32 (fun _ _ => 0) (rowTree row tag) 0 tag i = 0 := by
    intro i hi
    unfold tagsWord rowTree
    simp only [tagLongs_eq (Or.inl rfl), RADIX_TREE_MAX_TAGS, Nat.reduceDiv, Nat.reduceMul]
    split_ifs with h1 h2
    · obtain ⟨h3, -⟩ := h2
      rw [show (tag * 2 + i) % 2 = 1 by omega]
      exact hsecond
    · rfl
    · rfl
  have hmask : (offset + 32) &&& notW 32 (32 - 1) = 32 * ((offset + 32) / 32) :=
    and_notW (W := 32) (k := 5) (by omega) (by omega)
  unfold radixTreeFindNextBit at hret
  rw [if_pos (show offset < RADIX_TREE_MAP_SIZE from ho.trans (by decide))] at hret
  dsimp only at hret
  rw [tagsWord_row (Or.inl rfl) (rowTree_hasRow row tag 0) htag (by omega), if_neg (not_not.mpr hfirst), hmask,
    show 32 * ((offset + 32) / 32) = 32 by omega, show offset / 32 = 0 by omega,
    findNextLoop_zero (by decide) N 0 hzero] at hret
  cases hret

/-- **The next set bit of a row.** With 64-bit words every search is right. With 32-bit words one that
starts in the first word is, if and only if there is a bit to be found. -/
theorem findsNext_iff (hW : W = 32 ∨ W = 64) (row : ℕ → BitVec W) (htag : tag < RADIX_TREE_MAX_TAGS)
    (offset : ℕ) : FindsNext row tag offset ↔
      W = 64 ∨ 32 ≤ offset ∨ ∃ i, offset ≤ i ∧ i < 64 ∧ rowBit row i = true := by
  refine ⟨fun hfinds => ?_, findsNext hW htag⟩
  by_contra hnot
  push Not at hnot
  obtain ⟨h64, ho, hno⟩ := hnot
  obtain rfl := hW.resolve_right h64
  exact not_findsNext htag ho (fun i hi hi64 => Bool.eq_false_iff.mpr (hno i hi hi64)) hfinds

/-- Bit 40 of a row of two words. -/
theorem findsNext_iff_forty : FindsNext (W := 32) (fun idx => if idx = 1 then 256 else 0) 0 3 ↔
    32 = 64 ∨ 32 ≤ 3 ∨ ∃ i, 3 ≤ i ∧ i < 64 ∧
      rowBit (W := 32) (fun idx => if idx = 1 then 256 else 0) i = true :=
  findsNext_iff (Or.inl rfl) _ (by decide) 3

/-- A row of two words without a bit. -/
theorem not_findsNext_empty : ¬ FindsNext (W := 32) (fun _ => 0) 0 0 :=
  not_findsNext (by decide) (by decide) fun i _ _ => by
    unfold rowBit
    exact BitVec.getLsbD_zero

end HardStack.Ida.NextBit
