import HardStack.Percpu.Model
import HardStack.Lib.FreeRuns

/-! # The metadata of a block

`Describes`: the hints of a block are a summary of the free runs of its part of the bitmap. This is
kept by every update on the two paths, with the part of the bitmap it is about. -/

namespace HardStack.Percpu.Blocks

open HardStack.Percpu.Model
open HardStack.Lib.FreeRuns

variable {map map' m m' : ℕ → Bool} {block : Block} {md : ℕ → Block} {a e i o n : ℕ}

theorem blockBits : PCPU_BITMAP_BLOCK_BITS = 1024 := rfl

/-- The hints of a block describe its part of the bitmap. -/
def Describes (map : ℕ → Bool) (block : Block) : Prop :=
  Summary map PCPU_BITMAP_BLOCK_BITS block.contigHint block.contigHintStart block.leftFree
    block.rightFree block.firstFree

/-! ### One free run -/

theorem findNextBit_spec {size offset : ℕ} (h : offset ≤ size) :
    offset ≤ findNextBit map size offset ∧ findNextBit map size offset ≤ size ∧
      Free map offset (findNextBit map size offset) ∧
      (findNextBit map size offset ≠ size → map (findNextBit map size offset) = true) := by
  obtain ⟨h1, h2, h3, h4⟩ := Lib.Bitmap.next_spec (p := map) h
  exact ⟨h1, h2, h3, fun hne => h4 (by unfold findNextBit at hne; omega)⟩

theorem findNextZeroBit_spec {size offset : ℕ} (h : offset ≤ size) :
    offset ≤ findNextZeroBit map size offset ∧ findNextZeroBit map size offset ≤ size ∧
      (∀ i, offset ≤ i → i < findNextZeroBit map size offset → map i = true) ∧
      (findNextZeroBit map size offset ≠ size → map (findNextZeroBit map size offset) = false) := by
  obtain ⟨h1, h2, h3, h4⟩ := Lib.Bitmap.next_spec (p := fun i => !map i) h
  exact ⟨h1, h2, fun i hi hlt => by simpa using h3 i hi hlt,
    fun hne => by
      unfold findNextZeroBit at hne ⊢
      simpa using h4 (by omega)⟩

/-- No zero bit from `offset` on is passed over. -/
theorem findNextZeroBit_le {size offset : ℕ} (h1 : offset ≤ i) (h2 : i < size)
    (hi : map i = false) : findNextZeroBit map size offset ≤ i := by
  obtain ⟨-, -, h3, -⟩ := @findNextZeroBit_spec map _ _ (show offset ≤ size by omega)
  by_contra hc
  have := h3 i h1 (by omega)
  rw [hi] at this
  exact absurd this (by decide)

theorem findLastBitLoop_spec (size : ℕ) : ∀ k, k ≤ size →
    (findLastBitLoop map size k = size ∧ Free map 0 k) ∨
      (findLastBitLoop map size k < k ∧ map (findLastBitLoop map size k) = true ∧
        Free map (findLastBitLoop map size k + 1) k)
  | 0, _ => Or.inl ⟨rfl, fun i _ hi => by omega⟩
  | k + 1, hk => by
    unfold findLastBitLoop
    by_cases hm : map k = true
    · rw [if_pos hm]
      exact Or.inr ⟨by omega, hm, fun i h1 h2 => by omega⟩
    · rw [if_neg hm]
      have hlast : ∀ {b}, Free map b k → Free map b (k + 1) := fun hb =>
        hb.append fun i h1 h2 => by
          rw [show i = k by omega]
          exact Bool.eq_false_iff.mpr hm
      rcases findLastBitLoop_spec size k (by omega) with ⟨h1, h2⟩ | ⟨h1, h2, h3⟩
      · exact Or.inl ⟨h1, hlast h2⟩
      · exact Or.inr ⟨by omega, h2, hlast h3⟩

/-- **`pcpu_block_update`**, handed the maximal free run that came about. -/
theorem describes_blockUpdate (h : Describes m block)
    (hmax : Maximal m' PCPU_BITMAP_BLOCK_BITS a e)
    (hout : ∀ i < PCPU_BITMAP_BLOCK_BITS, i < a ∨ e ≤ i → m' i = m i) :
    Describes m' (blockUpdate block a e) := by
  have hfirst : (blockUpdate block a e).firstFree = min block.firstFree a := by
    simp only [blockUpdate]
    split_ifs <;> rfl
  have hleft : (blockUpdate block a e).leftFree = if a = 0 then e - a else block.leftFree := by
    simp only [blockUpdate]
    split_ifs <;> rfl
  have hright : (blockUpdate block a e).rightFree =
      if e = PCPU_BITMAP_BLOCK_BITS then e - a else block.rightFree := by
    simp only [blockUpdate]
    split_ifs <;> rfl
  have hhint : (blockUpdate block a e).contigHint = max block.contigHint (e - a) ∧
      (((blockUpdate block a e).contigHint = block.contigHint ∧
        (blockUpdate block a e).contigHintStart = block.contigHintStart) ∨
      ((blockUpdate block a e).contigHint = e - a ∧
        (blockUpdate block a e).contigHintStart = a)) := by
    simp only [blockUpdate]
    split_ifs <;> simp_all <;> omega
  unfold Describes
  rw [hfirst, hleft, hright]
  exact Summary.extend h hmax hout hhint.1 hhint.2

/-! ### The scan of a block -/

/-- The bits before `k`; the ones from `k` on count as taken. -/
def before (map : ℕ → Bool) (k : ℕ) : ℕ → Bool := fun i => map i || decide (k ≤ i)

theorem before_of_lt {k : ℕ} (h : i < k) : before map k i = map i := by
  simp [before, h]

theorem before_of_true {k : ℕ} (h : map i = true) : before map k i = true := by
  simp [before, h]

theorem before_of_le {k : ℕ} (h : k ≤ i) : before map k i = true := by
  simp [before, h]

/-- **The scan** has described the bits before `rs`; every round takes in one more free region. -/
theorem refreshLoop_describes (map : ℕ → Bool) : ∀ (fuel : ℕ) (block : Block) (rs : ℕ),
    PCPU_BITMAP_BLOCK_BITS < fuel + rs → Describes (before map rs) block →
    (rs ≠ 0 → rs ≤ PCPU_BITMAP_BLOCK_BITS → map (rs - 1) = true) →
    Describes map (blockRefreshHintLoop map fuel block rs)
  | 0, block, rs, hfuel, h, _ => h.congr fun i hi => (before_of_lt (by omega)).symm
  | fuel + 1, block, rs, hfuel, h, hedge => by
    rw [blockRefreshHintLoop, nextUnpop]
    rcases Nat.lt_or_ge PCPU_BITMAP_BLOCK_BITS rs with hrs | hrs
    · have hend : findNextZeroBit map PCPU_BITMAP_BLOCK_BITS rs = PCPU_BITMAP_BLOCK_BITS := by
        unfold findNextZeroBit Lib.Bitmap.next
        rw [if_pos hrs.le]
      have hend' : findNextBit map PCPU_BITMAP_BLOCK_BITS (PCPU_BITMAP_BLOCK_BITS + 1) =
          PCPU_BITMAP_BLOCK_BITS := by
        unfold findNextBit Lib.Bitmap.next
        rw [if_pos (Nat.le_succ _)]
      simp only [hend, hend', lt_irrefl, if_false]
      exact h.congr fun i hi => (before_of_lt (by omega)).symm
    · obtain ⟨h1, h2, h3, h4⟩ := @findNextZeroBit_spec map _ _ hrs
      generalize findNextZeroBit map PCPU_BITMAP_BLOCK_BITS rs = s at h1 h2 h3 h4 ⊢
      rcases Nat.lt_or_ge s PCPU_BITMAP_BLOCK_BITS with hs | hs
      · obtain ⟨g1, g2, g3, g4⟩ := @findNextBit_spec map _ (s + 1) hs
        generalize findNextBit map PCPU_BITMAP_BLOCK_BITS (s + 1) = t at g1 g2 g3 g4 ⊢
        simp only [show s < t by omega, if_true]
        have hfree : Free map s t := by
          intro i hi1 hi2
          rcases Nat.eq_or_lt_of_le hi1 with rfl | hi1
          · exact h4 (by omega)
          · exact g3 i hi1 hi2
        refine refreshLoop_describes map fuel _ _ (by omega) ?_ fun _ hle => ?_
        · refine describes_blockUpdate h ⟨by omega, g2, fun i hi1 hi2 => ?_, fun h0 => ?_,
            fun hne => ?_⟩ fun i hi hout => ?_
          · rw [before_of_lt (by omega)]
            exact hfree i hi1 hi2
          · refine before_of_true ?_
            rcases Nat.eq_or_lt_of_le h1 with rfl | hlt
            · exact hedge h0 hrs
            · exact h3 _ (by omega) (by omega)
          · exact before_of_true (g4 hne)
          · rcases hout with hout | hout
            · rcases Nat.lt_or_ge i rs with hir | hir
              · rw [before_of_lt (by omega), before_of_lt hir]
              · rw [before_of_true (h3 i hir hout), before_of_true (h3 i hir hout)]
            · rcases Nat.eq_or_lt_of_le hout with rfl | hlt
              · rw [before_of_true (g4 (by omega)), before_of_true (g4 (by omega))]
              · rw [before_of_le (show t + 1 ≤ i from hlt), before_of_le (show rs ≤ i by omega)]
        · rw [Nat.add_sub_cancel]
          exact g4 (by omega)
      · have hend' : findNextBit map PCPU_BITMAP_BLOCK_BITS (s + 1) = PCPU_BITMAP_BLOCK_BITS := by
          unfold findNextBit Lib.Bitmap.next
          rw [if_pos (by omega)]
        simp only [hend', show ¬ s < PCPU_BITMAP_BLOCK_BITS by omega, if_false]
        refine h.congr fun i hi => ?_
        rcases Nat.lt_or_ge i rs with hir | hir
        · rw [before_of_lt hir]
        · rw [before_of_true (h3 i hir (by omega)), h3 i hir (by omega)]

/-- **`pcpu_block_refresh_hint`** makes the hints right from the first free bit alone. -/
theorem describes_refresh {allocMap : ℕ → Bool} {index : ℕ}
    (hfirst : ∀ i < PCPU_BITMAP_BLOCK_BITS, indexAllocMap allocMap index i = false →
      block.firstFree ≤ i)
    (hs : block.contigHintStart ≤ PCPU_BITMAP_BLOCK_BITS) :
    Describes (indexAllocMap allocMap index) (blockRefreshHint allocMap block index) := by
  have htaken : ∀ i < PCPU_BITMAP_BLOCK_BITS, i < block.firstFree →
      indexAllocMap allocMap index i = true := by
    intro i hi hlt
    by_contra hc
    have := hfirst i hi (Bool.eq_false_iff.mpr hc)
    omega
  refine refreshLoop_describes _ _ _ _ (by omega) ?_ fun h0 hle => htaken _ (by omega) (by omega)
  refine Summary.full (fun i hi => ?_) hs _
  rcases Nat.lt_or_ge i block.firstFree with hlt | hge
  · exact before_of_true (htaken i hi hlt)
  · exact before_of_le hge

/-! ### An area is taken -/

/-- The blocks of the first and the last bit of an area, and the offsets in them. -/
theorem area_ends (hn : 0 < n) :
    o = offToBlockIndex o * 1024 + offToBlockOff o ∧ offToBlockOff o < 1024 ∧
      o + n = offToBlockIndex (o + n - 1) * 1024 + (offToBlockOff (o + n - 1) + 1) ∧
      offToBlockOff (o + n - 1) < 1024 ∧ offToBlockIndex o ≤ offToBlockIndex (o + n - 1) := by
  unfold offToBlockIndex offToBlockOff
  simp only [blockBits]
  omega

theorem indexAllocMap_set (i j : ℕ) : indexAllocMap (bitmapSet m o n) i j =
    if o ≤ i * 1024 + j ∧ i * 1024 + j < o + n then true else indexAllocMap m i j := rfl

theorem indexAllocMap_clear (i j : ℕ) : indexAllocMap (bitmapClear m o n) i j =
    if o ≤ i * 1024 + j ∧ i * 1024 + j < o + n then false else indexAllocMap m i j := rfl

/-- The first block of an area, of which it takes the bits from `sOff` up to `fin`. -/
theorem describes_updateStartBlock {s e sOff eOff fin bits : ℕ}
    (h : Describes (indexAllocMap m s) block) (hfree : Free (indexAllocMap m s) sOff fin)
    (hlt : sOff < fin) (hfin : fin ≤ PCPU_BITMAP_BLOCK_BITS)
    (hin : ∀ i, sOff ≤ i → i < fin → indexAllocMap m' s i = true)
    (hout : ∀ i < PCPU_BITMAP_BLOCK_BITS, i < sOff ∨ fin ≤ i →
      indexAllocMap m' s i = indexAllocMap m s i)
    (hend : fin = if s = e then eOff else PCPU_BITMAP_BLOCK_BITS)
    (hbits : fin = PCPU_BITMAP_BLOCK_BITS ∨ sOff + bits = fin) :
    Describes (indexAllocMap m' s) (updateStartBlock m' block s e sOff eOff bits) := by
  -- what is free now was free before
  have hsub : ∀ i < PCPU_BITMAP_BLOCK_BITS, indexAllocMap m' s i = false →
      block.firstFree ≤ i ∧ (i < sOff ∨ fin ≤ i) := by
    intro i hi hfalse
    have hpos : i < sOff ∨ fin ≤ i := by
      by_contra hc
      rw [hin i (by omega) (by omega)] at hfalse
      exact absurd hfalse (by decide)
    exact ⟨h.first_le i hi (by rw [← hout i hi hpos]; exact hfalse), hpos⟩
  unfold updateStartBlock
  extract_lets map block'
  have hfirst : ∀ i < PCPU_BITMAP_BLOCK_BITS, indexAllocMap m' s i = false →
      block'.firstFree ≤ i := by
    intro i hi hfalse
    obtain ⟨h1, h2⟩ := hsub i hi hfalse
    by_cases hs : sOff = block.firstFree
    · simp only [block', if_pos hs]
      exact findNextZeroBit_le (by omega) hi hfalse
    · simp only [block', if_neg hs]
      exact h1
  have hblock : block'.contigHint = block.contigHint ∧
      block'.contigHintStart = block.contigHintStart ∧ block'.leftFree = block.leftFree ∧
      block'.rightFree = block.rightFree := by
    by_cases hs : sOff = block.firstFree
    · simp only [block', if_pos hs, and_self]
    · simp only [block', if_neg hs, and_self]
  clear_value block'
  obtain ⟨b1, b2, b3, b4⟩ := hblock
  have hfits := h.fits
  by_cases hhit : block'.contigHintStart ≤ sOff ∧
      sOff < block'.contigHintStart + block'.contigHint
  · rw [if_pos hhit]
    exact describes_refresh hfirst (by omega)
  · rw [if_neg hhit]
    have hshrink := Summary.shrink h hlt hfin hfree
      (Summary.apart h hlt hfin hfree (by omega)) hin hout
    have hright : (if s = e then min block.rightFree (PCPU_BITMAP_BLOCK_BITS - eOff) else 0) =
        min block.rightFree (PCPU_BITMAP_BLOCK_BITS - fin) := by
      by_cases hse : s = e
      · rw [if_pos hse, hend, if_pos hse]
      · rw [if_neg hse, hend, if_neg hse, Nat.sub_self, Nat.min_zero]
    unfold Describes
    simp only [b1, b2, b3, b4, hright]
    exact hshrink.first_mono hfirst

/-- The last block of an area, if it is another one, of which it takes the bits up to `eOff`. -/
theorem describes_updateEndBlock {e eOff : ℕ} (h : Describes (indexAllocMap m e) block)
    (hfree : Free (indexAllocMap m e) 0 eOff) (hpos : 0 < eOff)
    (hlt : eOff < PCPU_BITMAP_BLOCK_BITS) (hin : ∀ i < eOff, indexAllocMap m' e i = true)
    (hout : ∀ i < PCPU_BITMAP_BLOCK_BITS, eOff ≤ i → indexAllocMap m' e i = indexAllocMap m e i) :
    Describes (indexAllocMap m' e) (updateEndBlock m' block e eOff) := by
  have hfirst : ∀ i < PCPU_BITMAP_BLOCK_BITS, indexAllocMap m' e i = false →
      findNextZeroBit (indexAllocMap m' e) PCPU_BITMAP_BLOCK_BITS eOff ≤ i := by
    intro i hi hfalse
    refine findNextZeroBit_le ?_ hi hfalse
    by_contra hc
    rw [hin i (by omega)] at hfalse
    exact absurd hfalse (by decide)
  have hfits := h.fits
  unfold updateEndBlock
  rw [if_neg hlt.ne]
  by_cases hhit : block.contigHintStart < eOff
  · simp only [if_pos hhit]
    exact describes_refresh hfirst (by simp only; omega)
  · simp only [if_neg hhit]
    have hshrink := Summary.shrink h hpos hlt.le hfree (Or.inr (by omega))
      (fun i _ hi => hin i hi) fun i hi hd => hout i hi (by omega)
    rw [Nat.min_zero] at hshrink
    exact hshrink.first_mono hfirst

/-- **The blocks after an area has been taken.** -/
theorem describes_updateBlocksAlloc (h : Describes (indexAllocMap m i) (md i)) (hn : 0 < n)
    (hfree : Free m o (o + n)) :
    Describes (indexAllocMap (bitmapSet m o n) i)
      (updateBlocksAlloc (bitmapSet m o n) md o n i) := by
  obtain ⟨ho, hs, hon, he, hse⟩ := area_ends (o := o) hn
  unfold updateBlocksAlloc
  generalize offToBlockIndex o = s at *
  generalize offToBlockOff o = sOff at *
  generalize offToBlockIndex (o + n - 1) = e at *
  generalize offToBlockOff (o + n - 1) = eOff at *
  have hslice : ∀ {a f}, o ≤ i * 1024 + a → i * 1024 + f ≤ o + n → Free (indexAllocMap m i) a f :=
    fun ha hf j h1 h2 => hfree _ (by simp only [blockOffToOff, blockBits]; omega)
      (by simp only [blockOffToOff, blockBits]; omega)
  have hset : ∀ j, o ≤ i * 1024 + j → i * 1024 + j < o + n →
      indexAllocMap (bitmapSet m o n) i j = true := fun j h1 h2 => by
    rw [indexAllocMap_set, if_pos ⟨h1, h2⟩]
  have hkeep : ∀ j, i * 1024 + j < o ∨ o + n ≤ i * 1024 + j →
      indexAllocMap (bitmapSet m o n) i j = indexAllocMap m i j := fun j hj => by
    rw [indexAllocMap_set, if_neg (by omega)]
  have hB := blockBits
  by_cases hsame : s = e
  · simp only [if_pos hsame]
    by_cases hi : i = s
    · subst hi
      rw [Function.update_self]
      exact describes_updateStartBlock h (hslice (by omega) (by omega))
        (show sOff < eOff + 1 by omega) (by omega) (fun j h1 h2 => hset j (by omega) (by omega))
        (fun j h1 h2 => hkeep j (by omega)) (by rw [if_pos hsame]) (Or.inr (by omega))
    · rw [Function.update_of_ne hi]
      exact h.congr fun j hj => hkeep j (by omega)
  · simp only [if_neg hsame]
    rcases Nat.lt_trichotomy i s with hi | hi | hi
    · rw [if_neg (by omega), Function.update_of_ne (by omega), Function.update_of_ne (by omega)]
      exact h.congr fun j hj => hkeep j (by omega)
    · subst hi
      rw [if_neg (by omega), Function.update_of_ne (by omega), Function.update_self]
      exact describes_updateStartBlock h (hslice (by omega) (by omega))
        (show sOff < PCPU_BITMAP_BLOCK_BITS by omega) le_rfl
        (fun j h1 h2 => hset j (by omega) (by omega)) (fun j h1 h2 => hkeep j (by omega))
        (by rw [if_neg hsame]) (Or.inl rfl)
    · rcases Nat.lt_trichotomy i e with hie | hie | hie
      · -- a block in between
        rw [if_pos ⟨hi, by split <;> omega⟩]
        rw [Function.update_of_ne (by omega), Function.update_of_ne (by omega)]
        exact Summary.full (fun j hj => hset j (by omega) (by omega))
          ((Nat.le_add_right _ _).trans h.fits) _
      · subst hie
        by_cases hfull : eOff + 1 = PCPU_BITMAP_BLOCK_BITS
        · rw [if_pos ⟨hi, by rw [if_pos hfull]; omega⟩, Function.update_self,
            Function.update_of_ne (by omega)]
          refine Summary.full (fun j hj => hset j (by omega) (by omega)) ?_ _
          unfold updateEndBlock
          simp only [if_pos hfull]
          exact (Nat.le_add_right _ _).trans h.fits
        · rw [if_neg (by rw [if_neg hfull]; omega), Function.update_self,
            Function.update_of_ne (by omega)]
          exact describes_updateEndBlock h (hslice (by omega) (by omega)) (Nat.succ_pos _) (by omega)
            (fun j hj => hset j (by omega) (by omega)) fun j hj hle => hkeep j (by omega)
      · rw [if_neg (by split <;> omega), Function.update_of_ne (by omega),
          Function.update_of_ne (by omega)]
        exact h.congr fun j hj => hkeep j (by omega)

/-! ### An area is freed -/

/-- The free run before a freed area in its first block. -/
theorem freeStart_spec {sOff : ℕ} (h : Describes m block)
    (hout : ∀ i < sOff, m' i = m i) : freeStart m' block sOff ≤ sOff ∧
      Free m' (freeStart m' block sOff) sOff ∧
      (freeStart m' block sOff ≠ 0 → m' (freeStart m' block sOff - 1) = true) := by
  unfold freeStart
  by_cases hhint : sOff = block.contigHint + block.contigHintStart
  · rw [if_pos hhint]
    refine ⟨by omega, fun i h1 h2 => ?_, fun h0 => ?_⟩
    · rw [hout i h2]
      exact h.run i h1 (by omega)
    · rw [hout _ (by omega)]
      exact h.run_left h0
  · rw [if_neg hhint]
    have hlast := @findLastBitLoop_spec m' sOff sOff le_rfl
    unfold findLastBit
    generalize findLastBitLoop m' sOff sOff = l at hlast ⊢
    rcases hlast with ⟨h1, h2⟩ | ⟨h1, h2, h3⟩
    · simp only [if_pos h1.symm]
      exact ⟨Nat.zero_le _, h2, fun h0 => absurd rfl h0⟩
    · simp only [if_neg h1.ne']
      refine ⟨h1, h3, fun _ => ?_⟩
      rw [Nat.add_sub_cancel]
      exact h2

/-- The free run after it in its last block. -/
theorem freeEnd_spec {eOff : ℕ} (h : Describes m block) (he : eOff ≤ PCPU_BITMAP_BLOCK_BITS)
    (hout : ∀ i < PCPU_BITMAP_BLOCK_BITS, eOff ≤ i → m' i = m i) :
    eOff ≤ freeEnd m' block eOff ∧ freeEnd m' block eOff ≤ PCPU_BITMAP_BLOCK_BITS ∧
      Free m' eOff (freeEnd m' block eOff) ∧
      (freeEnd m' block eOff ≠ PCPU_BITMAP_BLOCK_BITS → m' (freeEnd m' block eOff) = true) := by
  have hfits := h.fits
  unfold freeEnd
  by_cases hhint : eOff = block.contigHintStart
  · rw [if_pos hhint]
    refine ⟨by omega, hfits, fun i h1 h2 => ?_, fun hne => ?_⟩
    · rw [hout i (by omega) h1]
      exact h.run i (by omega) h2
    · rw [hout _ (by omega) (by omega)]
      exact h.run_right hne
  · rw [if_neg hhint]
    exact findNextBit_spec he

/-- The first and the last block of a freed area, and what is free around it in them. -/
structure Around (m' : ℕ → Bool) (o n start fin : ℕ) : Prop where
  start_le : start ≤ offToBlockOff o
  start_free : Free (indexAllocMap m' (offToBlockIndex o)) start (offToBlockOff o)
  start_edge : start ≠ 0 → indexAllocMap m' (offToBlockIndex o) (start - 1) = true
  fin_ge : offToBlockOff (o + n - 1) + 1 ≤ fin
  fin_le : fin ≤ PCPU_BITMAP_BLOCK_BITS
  fin_free : Free (indexAllocMap m' (offToBlockIndex (o + n - 1)))
    (offToBlockOff (o + n - 1) + 1) fin
  fin_edge : fin ≠ PCPU_BITMAP_BLOCK_BITS →
    indexAllocMap m' (offToBlockIndex (o + n - 1)) fin = true

theorem around_free (hn : 0 < n)
    (hs : Describes (indexAllocMap m (offToBlockIndex o)) (md (offToBlockIndex o)))
    (he : Describes (indexAllocMap m (offToBlockIndex (o + n - 1)))
      (md (offToBlockIndex (o + n - 1)))) :
    Around (bitmapClear m o n) o n
      (freeStart (indexAllocMap (bitmapClear m o n) (offToBlockIndex o)) (md (offToBlockIndex o))
        (offToBlockOff o))
      (freeEnd (indexAllocMap (bitmapClear m o n) (offToBlockIndex (o + n - 1)))
        (md (offToBlockIndex (o + n - 1))) (offToBlockOff (o + n - 1) + 1)) := by
  obtain ⟨h1, h2, h3, h4, -⟩ := area_ends (o := o) hn
  have hB := blockBits
  obtain ⟨s1, s2, s3⟩ := @freeStart_spec _
    (indexAllocMap (bitmapClear m o n) (offToBlockIndex o)) _ _ hs fun i (hi : i < offToBlockOff o) => by
      rw [indexAllocMap_clear, if_neg (by omega)]
  obtain ⟨e1, e2, e3, e4⟩ := @freeEnd_spec _
    (indexAllocMap (bitmapClear m o n) (offToBlockIndex (o + n - 1))) _ _ he
    (show offToBlockOff (o + n - 1) + 1 ≤ PCPU_BITMAP_BLOCK_BITS by omega) fun i hi hle => by
      rw [indexAllocMap_clear, if_neg (by omega)]
  exact ⟨s1, s2, s3, e1, e2, e3, e4⟩

/-- **The blocks after an area has been freed.** -/
theorem describes_updateBlocksFree {start fin : ℕ} (h : Describes (indexAllocMap m i) (md i))
    (hn : 0 < n) (har : Around (bitmapClear m o n) o n start fin) :
    Describes (indexAllocMap (bitmapClear m o n) i)
      (updateBlocksFree md (offToBlockIndex o) (offToBlockIndex (o + n - 1)) start fin i) := by
  obtain ⟨ho, hs, hon, he, hse⟩ := area_ends (o := o) hn
  obtain ⟨s1, s2, s3, e1, e2, e3, e4⟩ := har
  unfold updateBlocksFree
  generalize offToBlockIndex o = s at *
  generalize offToBlockOff o = sOff at *
  generalize offToBlockIndex (o + n - 1) = e at *
  generalize offToBlockOff (o + n - 1) = eOff at *
  have hclear : ∀ j, o ≤ i * 1024 + j → i * 1024 + j < o + n →
      indexAllocMap (bitmapClear m o n) i j = false := fun j h1 h2 => by
    rw [indexAllocMap_clear, if_pos ⟨h1, h2⟩]
  have hkeep : ∀ j, i * 1024 + j < o ∨ o + n ≤ i * 1024 + j →
      indexAllocMap (bitmapClear m o n) i j = indexAllocMap m i j := fun j hj => by
    rw [indexAllocMap_clear, if_neg (by omega)]
  have hB := blockBits
  by_cases hsame : s = e
  · simp only [if_pos hsame]
    by_cases hi : i = s
    · subst hi hsame
      rw [Function.update_self]
      refine describes_blockUpdate h ⟨by omega, e2, ?_, s3, e4⟩ fun j hj hd => hkeep j (by omega)
      refine s2.append (Free.append (e := eOff + 1) (fun j h1 h2 => ?_) e3)
      exact hclear j (by omega) (by omega)
    · rw [Function.update_of_ne hi]
      exact h.congr fun j hj => hkeep j (by omega)
  · simp only [if_neg hsame]
    rcases Nat.lt_trichotomy i s with hi | hi | hi
    · rw [if_neg (by omega), Function.update_of_ne (by omega), Function.update_of_ne (by omega)]
      exact h.congr fun j hj => hkeep j (by omega)
    · subst hi
      rw [if_neg (by omega), Function.update_of_ne (by omega), Function.update_self]
      refine describes_blockUpdate h ⟨by omega, le_rfl, ?_, s3, fun hne => absurd rfl hne⟩
        fun j hj hd => hkeep j (by omega)
      exact s2.append fun j h1 h2 => hclear j (by omega) (by omega)
    · rcases Nat.lt_trichotomy i e with hie | hie | hie
      · rw [if_pos ⟨hi, hie⟩]
        exact Summary.empty fun j hj => hclear j (by omega) (by omega)
      · subst hie
        rw [if_neg (by omega), Function.update_self, Function.update_of_ne (by omega)]
        refine describes_blockUpdate h ⟨by omega, e2, ?_, fun h0 => absurd rfl h0, e4⟩
          fun j hj hd => hkeep j (by omega)
        exact Free.append (e := eOff + 1) (fun j h1 h2 => hclear j (by omega) (by omega)) e3
      · rw [if_neg (by omega), Function.update_of_ne (by omega), Function.update_of_ne (by omega)]
        exact h.congr fun j hj => hkeep j (by omega)

end HardStack.Percpu.Blocks
