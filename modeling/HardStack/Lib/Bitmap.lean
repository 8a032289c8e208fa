import Mathlib

/-! # Bitmaps

The next bit that is set, and the next area of bits that are clear, of a bitmap read as a function of
the index. The area starts at an index that a rounding function gives; the search is the retry loop
that skips past the last bit found in the way. -/

namespace HardStack.Lib.Bitmap

/-- The first of the `n` indices from `start` on with `p`, the index after them if there is none. -/
def seek (p : ℕ → Bool) : ℕ → ℕ → ℕ
  | 0, start => start
  | n + 1, start => if p start then start else seek p n (start + 1)

/-- The first index from `start` on and below `size` with `p`, `size` if there is none. -/
def next (p : ℕ → Bool) (size start : ℕ) : ℕ :=
  if size ≤ start then size else seek p (size - start) start

variable {p map : ℕ → Bool} {align : ℕ → ℕ} {size start nr fuel : ℕ}

theorem seek_spec : ∀ (n start : ℕ), start ≤ seek p n start ∧ seek p n start ≤ start + n ∧
    (∀ i, start ≤ i → i < seek p n start → p i = false) ∧
    (seek p n start < start + n → p (seek p n start) = true)
  | 0, start => ⟨le_rfl, le_rfl, fun i h1 h2 => by unfold seek at h2; omega,
      fun h => absurd h (lt_irrefl _)⟩
  | n + 1, start => by
    unfold seek
    by_cases hp : p start = true
    · rw [if_pos hp]
      exact ⟨le_rfl, by omega, fun i h1 h2 => by omega, fun _ => hp⟩
    · rw [if_neg hp]
      obtain ⟨h1, h2, h3, h4⟩ := seek_spec n (start + 1)
      refine ⟨by omega, by omega, fun i hi hlt => ?_, fun h => h4 (by omega)⟩
      rcases Nat.eq_or_lt_of_le hi with rfl | hi
      · exact Bool.eq_false_iff.mpr hp
      · exact h3 i hi hlt

/-- **The next index** with `p`. -/
theorem next_spec (h : start ≤ size) : start ≤ next p size start ∧ next p size start ≤ size ∧
    (∀ i, start ≤ i → i < next p size start → p i = false) ∧
    (next p size start < size → p (next p size start) = true) := by
  unfold next
  by_cases hs : size ≤ start
  · rw [if_pos hs]
    exact ⟨h, le_rfl, fun i h1 h2 => by omega, fun h => absurd h (lt_irrefl _)⟩
  · rw [if_neg hs]
    obtain ⟨h1, h2, h3, h4⟩ := seek_spec (p := p) (size - start) start
    exact ⟨h1, by omega, h3, fun h => h4 (by omega)⟩

theorem next_le (size start : ℕ) : next p size start ≤ size := by
  rcases Nat.le_total start size with h | h
  · exact (next_spec h).2.1
  · unfold next
    rw [if_pos h]

theorem next_eq {v : ℕ} (h1 : start ≤ v) (h2 : v ≤ size) (h3 : ∀ i, start ≤ i → i < v → p i = false)
    (h4 : v < size → p v = true) : next p size start = v := by
  obtain ⟨g1, g2, g3, g4⟩ := next_spec (p := p) (h1.trans h2)
  rcases Nat.lt_trichotomy (next p size start) v with hlt | heq | hgt
  · have hp := g4 (by omega)
    rw [h3 _ g1 hlt] at hp
    cases hp
  · exact heq
  · have hp := h4 (by omega)
    rw [g3 _ h1 hgt] at hp
    cases hp

/-- A search that stops earlier. -/
theorem min_next {limit : ℕ} (hs : start ≤ limit) (hl : limit ≤ size) :
    min (next p size start) limit = next p limit start := by
  obtain ⟨g1, g2, g3, g4⟩ := next_spec (p := p) (hs.trans hl)
  refine (next_eq (le_min g1 hs) (min_le_right _ _) (fun i hi hlt => ?_) fun h => ?_).symm
  · exact g3 i hi (lt_of_lt_of_le hlt (min_le_left _ _))
  · have hlt : next p size start < limit := by
      rcases min_lt_iff.mp h with h | h
      · exact h
      · exact absurd h (lt_irrefl _)
    rw [min_eq_left hlt.le]
    exact g4 (by omega)

/-- A search for fewer indices gives the same where it does not miss the first one. -/
theorem next_eq_next_iff {q : ℕ → Bool} (hqp : ∀ i, q i = true → p i = true) (h : start ≤ size) :
    next q size start = next p size start ↔
      ∀ i, start ≤ i → i < size → p i = true → ∃ k, start ≤ k ∧ k ≤ i ∧ q k = true := by
  obtain ⟨g1, g2, g3, g4⟩ := next_spec (p := p) h
  constructor
  · intro heq i hi hlt hp
    have hle : next p size start ≤ i := by
      by_contra hgt
      rw [g3 i hi (not_le.mp hgt)] at hp
      cases hp
    obtain ⟨-, -, -, hq⟩ := next_spec (p := q) h
    rw [heq] at hq
    exact ⟨_, g1, hle, hq (lt_of_le_of_lt hle hlt)⟩
  · intro hall
    refine next_eq g1 g2 (fun i hi hlt => ?_) fun hlt => ?_
    · have hp := g3 i hi hlt
      by_contra hq
      rw [hqp i (Bool.eq_true_of_not_eq_false hq)] at hp
      cases hp
    · obtain ⟨k, hk, hle, hq⟩ := hall _ g1 hlt (g4 hlt)
      rcases hle.lt_or_eq with hlt' | heq
      · have hp := g3 k hk hlt'
        rw [hqp k hq] at hp
        cases hp
      · rwa [heq] at hq

/-- The search for `nr` clear bits below `size` from `start` on. -/
def zeroArea (map : ℕ → Bool) (align : ℕ → ℕ) (size nr : ℕ) : ℕ → ℕ → ℕ
  | 0, _ => size + nr
  | fuel + 1, start =>
    let index := align (next (fun i => !map i) size start)
    let fin := index + nr
    if size < fin then fin
    else
      let i := next map fin index
      if i < fin then zeroArea map align size nr fuel (i + 1) else index

/-- The `nr` bits from `index` on are clear and below `size`. -/
def Clear (map : ℕ → Bool) (size nr index : ℕ) : Prop :=
  index + nr ≤ size ∧ ∀ i, index ≤ i → i < index + nr → map i = false

theorem Clear.mono {size' index : ℕ} (h : size ≤ size') (hc : Clear map size nr index) :
    Clear map size' nr index := ⟨hc.1.trans h, hc.2⟩

/-- **What the search finds** is clear and starts where the rounding function puts it. -/
theorem zeroArea_clear (hnr : 0 < nr) : ∀ (fuel start : ℕ),
    zeroArea map align size nr fuel start ≤ size →
    Clear map size nr (zeroArea map align size nr fuel start) ∧
      ∃ x, align x = zeroArea map align size nr fuel start
  | 0, start, h => by
    unfold zeroArea at h
    omega
  | fuel + 1, start, h => by
    rw [zeroArea] at h ⊢
    generalize hx : next (fun i => !map i) size start = x at h ⊢
    by_cases hsize : size < align x + nr
    · simp only [if_pos hsize] at h
      omega
    · simp only [if_neg hsize] at h ⊢
      obtain ⟨-, -, h3, -⟩ := next_spec (p := map) (Nat.le_add_right (align x) nr)
      by_cases hi : next map (align x + nr) (align x) < align x + nr
      · simp only [if_pos hi] at h ⊢
        exact zeroArea_clear hnr fuel _ h
      · simp only [if_neg hi] at h ⊢
        exact ⟨⟨by omega, fun i h1 h2 => h3 i h1 (by omega)⟩, x, rfl⟩

/-- **The search finds the first area**: none that starts where the rounding function may put it
comes before. -/
theorem zeroArea_least (hle : ∀ x, x ≤ align x) (hmono : Monotone align) (hnr : 0 < nr) {a : ℕ}
    (ha : align a = a) (hc : Clear map size nr a) : ∀ (fuel start : ℕ), start ≤ a →
    a < start + fuel → zeroArea map align size nr fuel start ≤ a
  | 0, start, h1, h2 => by omega
  | fuel + 1, start, h1, h2 => by
    obtain ⟨hsize, hfree⟩ := hc
    rw [zeroArea]
    obtain ⟨hx1, -, hx3, -⟩ := next_spec (p := fun i => !map i) (show start ≤ size by omega)
    have hxa : next (fun i => !map i) size start ≤ a := by
      by_contra hgt
      have := hx3 a h1 (by omega)
      simp only [hfree a le_rfl (by omega)] at this
      exact absurd this (by decide)
    generalize next (fun i => !map i) size start = x at hx1 hxa ⊢
    have hia : align x ≤ a := by
      have := hmono hxa
      rwa [ha] at this
    have hxi := hle x
    rw [if_neg (by omega)]
    obtain ⟨hn1, hn2, -, hn4⟩ := next_spec (p := map) (Nat.le_add_right (align x) nr)
    by_cases hi : next map (align x + nr) (align x) < align x + nr
    · rw [if_pos hi]
      -- the bit in the way is not one of the area
      have hbit := hn4 hi
      have hout : next map (align x + nr) (align x) < a := by
        by_contra hge
        have := hfree _ (not_lt.mp hge) (by omega)
        rw [hbit] at this
        exact absurd this (by decide)
      exact zeroArea_least hle hmono hnr ha ⟨hsize, hfree⟩ fuel _ (by omega) (by omega)
    · rw [if_neg hi]
      exact hia

/-- The search fails exactly if there is no such area from `start` on. -/
theorem zeroArea_le_iff (hle : ∀ x, x ≤ align x) (hmono : Monotone align)
    (hidem : ∀ x, align (align x) = align x) (hnr : 0 < nr) :
    zeroArea map align size nr (size + 1) 0 ≤ size ↔
      ∃ a, align a = a ∧ Clear map size nr a := by
  constructor
  · intro h
    obtain ⟨hc, x, hx⟩ := zeroArea_clear hnr _ _ h
    refine ⟨_, ?_, hc⟩
    rw [← hx, hidem]
  · rintro ⟨a, ha, hc⟩
    have hsize := hc.1
    have := zeroArea_least hle hmono hnr ha hc (size + 1) 0 (by omega) (by omega)
    omega

/-! ### The bits that a search reads -/

/-- The search for the next index with `p` reads an index when none before it has `p`. -/
def NextReads (p : ℕ → Bool) (size start i : ℕ) : Prop :=
  start ≤ i ∧ i < size ∧ ∀ j, start ≤ j → j < i → p j = false

theorem nextReads_iff (h : start ≤ size) {i : ℕ} :
    NextReads p size start i ↔ start ≤ i ∧ i ≤ next p size start ∧ i < size := by
  obtain ⟨h1, h2, h3, h4⟩ := next_spec (p := p) h
  constructor
  · rintro ⟨hi, hlt, hfree⟩
    refine ⟨hi, ?_, hlt⟩
    by_contra hgt
    have hp := h4 (by omega)
    rw [hfree _ h1 (by omega)] at hp
    cases hp
  · rintro ⟨hi, hle, hlt⟩
    exact ⟨hi, hlt, fun j hj hji => h3 j hj (by omega)⟩

/-- The bits that the search for an area reads. -/
def AreaReads (map : ℕ → Bool) (align : ℕ → ℕ) (size nr : ℕ) : ℕ → ℕ → ℕ → Prop
  | 0, _, _ => False
  | fuel + 1, start, i =>
    let index := align (next (fun i => !map i) size start)
    let fin := index + nr
    NextReads (fun i => !map i) size start i ∨ ¬ size < fin ∧ (NextReads map fin index i ∨
      next map fin index < fin ∧ AreaReads map align size nr fuel (next map fin index + 1) i)

theorem le_zeroArea (hle : ∀ x, x ≤ align x) (hnr : 0 < nr) : ∀ (fuel : ℕ) {start : ℕ},
    start ≤ size → start ≤ zeroArea map align size nr fuel start
  | 0, start, h => by
    unfold zeroArea
    omega
  | fuel + 1, start, h => by
    rw [zeroArea]
    obtain ⟨hx, -⟩ := next_spec (p := fun i => !map i) h
    generalize next (fun i => !map i) size start = x at hx ⊢
    have hxi := hle x
    by_cases hsize : size < align x + nr
    · rw [if_pos hsize]
      omega
    · rw [if_neg hsize]
      obtain ⟨hn1, -⟩ := next_spec (p := map) (Nat.le_add_right (align x) nr)
      by_cases hi : next map (align x + nr) (align x) < align x + nr
      · rw [if_pos hi]
        exact le_trans (by omega) (le_zeroArea hle hnr fuel (show _ + 1 ≤ size by omega))
      · rw [if_neg hi]
        omega

/-- **What the search reads**: it stays below a bound exactly if the area that it finds does. The bound
is so far below the size that the search cannot fail before it has come there. -/
theorem areaReads_lt_iff {bound slack : ℕ} (hle : ∀ x, x ≤ align x) (hslack : ∀ x, align x ≤ x + slack)
    (hnr : 0 < nr) (hbound : bound + nr + slack ≤ size) : ∀ (fuel start : ℕ), start ≤ bound →
    size < start + fuel → ((∀ i, AreaReads map align size nr fuel start i → i < bound) ↔
      zeroArea map align size nr fuel start + nr ≤ bound)
  | 0, start, h1, h2 => by omega
  | fuel + 1, start, h1, h2 => by
    have hstart : start ≤ size := by omega
    rw [zeroArea]
    simp only [AreaReads, nextReads_iff hstart]
    obtain ⟨hx1, hx2, -⟩ := next_spec (p := fun i => !map i) hstart
    generalize next (fun i => !map i) size start = x at hx1 hx2 ⊢
    have hxi := hle x
    have hxs := hslack x
    by_cases hsize : size < align x + nr
    · -- all bits up to the end have been read
      rw [if_pos hsize]
      refine iff_of_false (fun hall => ?_) (by omega)
      have := hall (min x (size - 1)) (Or.inl ⟨by omega, by omega, by omega⟩)
      omega
    · rw [if_neg hsize]
      obtain ⟨hn1, hn2, -⟩ := next_spec (p := map) (Nat.le_add_right (align x) nr)
      simp only [nextReads_iff (Nat.le_add_right (align x) nr)]
      generalize next map (align x + nr) (align x) = y at hn1 hn2 ⊢
      by_cases hi : y < align x + nr
      · rw [if_pos hi]
        by_cases hy : y < bound
        · rw [← areaReads_lt_iff hle hslack hnr hbound fuel (y + 1) hy (by omega)]
          constructor
          · exact fun hall i hread => hall i (Or.inr ⟨hsize, Or.inr ⟨hi, hread⟩⟩)
          · rintro hall i (⟨-, hix, -⟩ | ⟨-, ⟨-, hiy, -⟩ | ⟨-, hread⟩⟩)
            · omega
            · omega
            · exact hall i hread
        · -- the bit in the way is read, and the area comes after it
          refine iff_of_false (fun hall => ?_) fun hfit => ?_
          · exact hy (hall y (Or.inr ⟨hsize, Or.inl ⟨hn1, le_rfl, hi⟩⟩))
          · have := @le_zeroArea map align size nr hle hnr fuel (y + 1) (by omega)
            omega
      · rw [if_neg hi]
        constructor
        · intro hall
          have := hall (align x + nr - 1) (Or.inr ⟨hsize, Or.inl ⟨by omega, by omega, by omega⟩⟩)
          omega
        · rintro hfit i (⟨-, hix, -⟩ | ⟨-, ⟨-, -, hif⟩ | ⟨hlt, -⟩⟩)
          · omega
          · omega
          · exact absurd hlt hi

end HardStack.Lib.Bitmap
