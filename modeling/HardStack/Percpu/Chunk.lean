import HardStack.Percpu.Blocks
import HardStack.Lib.Run

/-! # The metadata of a chunk

`Exact`: every block is described by its hints, and nothing is free below `firstBit`. With this, the
regions that `pcpu_next_md_free_region` reports are the maximal free runs, and the scan of
`pcpu_chunk_refresh_hint` ends. `Exact` holds of a first chunk and is kept when an area is taken or
freed. -/

namespace HardStack.Percpu.Chunk

open HardStack.Percpu.Model
open HardStack.Percpu.Blocks
open HardStack.Lib.FreeRuns
open Relation

variable {chunk : Model.Chunk} {map : ℕ → Bool} {md : ℕ → Block} {a e i o n : ℕ}

/-- The hints of the blocks are right, and so is the first bit. -/
structure Exact (chunk : Model.Chunk) : Prop where
  blocks : ∀ i < chunkNrBlocks chunk,
    Describes (indexAllocMap chunk.allocMap i) (chunk.mdBlocks i)
  first_le : chunk.firstBit ≤ chunkMapBits chunk
  first : ∀ i < chunkMapBits chunk, chunk.allocMap i = false → chunk.firstBit ≤ i

/-- The chunk hint is a free run. -/
def Hinted (chunk : Model.Chunk) : Prop :=
  0 < chunk.contigBits → chunk.contigBitsStart + chunk.contigBits ≤ chunkMapBits chunk ∧
    Free chunk.allocMap chunk.contigBitsStart (chunk.contigBitsStart + chunk.contigBits)

/-- The chunk with another hint. -/
def withHint (chunk : Model.Chunk) (bits start : ℕ) : Model.Chunk :=
  { chunk with contigBits := bits, contigBitsStart := start }

theorem Exact.withHint (h : Exact chunk) (bits start : ℕ) : Exact (withHint chunk bits start) :=
  ⟨h.blocks, h.first_le, h.first⟩

theorem mapBits_eq (chunk : Model.Chunk) : chunkMapBits chunk = chunkNrBlocks chunk * 1024 := by
  unfold chunkMapBits chunkNrBlocks PCPU_BITMAP_BLOCK_SIZE PAGE_SIZE PCPU_MIN_ALLOC_SIZE
  omega

theorem free_index (h : Free (indexAllocMap map i) a e) : Free map (i * 1024 + a) (i * 1024 + e) := by
  intro j h1 h2
  have := h (j - i * 1024) (by omega) (by omega)
  unfold indexAllocMap blockOffToOff at this
  rwa [blockBits, show i * 1024 + (j - i * 1024) = j by omega] at this

theorem Exact.before_first (h : Exact chunk) (h0 : chunk.firstBit ≠ 0) :
    chunk.allocMap (chunk.firstBit - 1) = true := by
  have hle := h.first_le
  by_contra hc
  have := h.first _ (by omega) (Bool.eq_false_iff.mpr hc)
  omega

/-! ### Free regions -/

/-- **What `pcpu_next_md_free_region` reports** from a bit on, the one before which is taken: the next
maximal free run. While `bits` is positive it is the run up to the block `i`. -/
theorem nextMdFreeRegionLoop_spec {N : ℕ} (h : ∀ i < N, Describes (indexAllocMap map i) (md i)) :
    ∀ (k i blockOff bitOff bits : ℕ), k = N - i →
    (bits = 0 → bitOff = i * 1024 + blockOff ∧ blockOff < 1024) →
    (bits ≠ 0 → i ≤ N ∧ bitOff + bits = i * 1024 ∧ Free map bitOff (i * 1024)) →
    (bitOff ≠ 0 → bitOff < N * 1024 → map (bitOff - 1) = true) →
    bitOff ≤ (nextMdFreeRegionLoop md k i blockOff bitOff bits).1 ∧
      ((nextMdFreeRegionLoop md k i blockOff bitOff bits).1 < N * 1024 →
        Maximal map (N * 1024) (nextMdFreeRegionLoop md k i blockOff bitOff bits).1
          ((nextMdFreeRegionLoop md k i blockOff bitOff bits).1 +
            (nextMdFreeRegionLoop md k i blockOff bitOff bits).2))
  | 0, i, blockOff, bitOff, bits, hk, h0, h1, hedge => by
    refine ⟨le_rfl, fun hlt => ?_⟩
    simp only [nextMdFreeRegionLoop] at hlt ⊢
    rcases Nat.eq_zero_or_pos bits with hb | hb
    · have := (h0 hb).1
      omega
    · obtain ⟨hi, hsum, hfree⟩ := h1 (by omega)
      have hiN : i = N := by omega
      subst hiN
      rw [hsum]
      exact ⟨by omega, le_rfl, hfree, fun hne => hedge hne hlt, fun hne => absurd rfl hne⟩
  | k + 1, i, blockOff, bitOff, bits, hk, h0, h1, hedge => by
    have hi : i < N := by omega
    have hd := h i hi
    have hB := blockBits
    rw [nextMdFreeRegionLoop]
    by_cases hb : bits ≠ 0
    · obtain ⟨-, hsum, hfree⟩ := h1 hb
      have hleft : Free map bitOff (i * 1024 + (md i).leftFree) :=
        hfree.append ((free_index hd.left_free).mono (by omega) le_rfl)
      have hle := hd.left_le
      by_cases hfull : (md i).leftFree = PCPU_BITMAP_BLOCK_BITS
      · simp only [if_pos hb, if_pos hfull]
        refine nextMdFreeRegionLoop_spec h k (i + 1) blockOff bitOff _ (by omega)
          (fun hz => by omega) (fun _ => ⟨by omega, by omega, ?_⟩) hedge
        rw [hfull, blockBits] at hleft
        rwa [Nat.succ_mul]
      · simp only [if_pos hb, if_neg hfull]
        refine ⟨le_rfl, fun hlt => ⟨by omega, by omega, hleft.mono le_rfl (by omega),
          fun hne => hedge hne hlt, fun hne => ?_⟩⟩
        rw [← Nat.add_assoc, hsum]
        exact hd.left_end hfull
    · obtain ⟨hoff, hlt⟩ := h0 (by omega)
      simp only [if_neg hb]
      by_cases hhint : (md i).contigHint ≠ 0 ∧ blockOff ≤ (md i).contigHintStart ∧
          (md i).contigHint + (md i).contigHintStart < PCPU_BITMAP_BLOCK_BITS
      · rw [if_pos hhint]
        simp only [blockOffToOff, blockBits]
        obtain ⟨c1, c2, c3⟩ := hhint
        refine ⟨by omega, fun _ => ?_⟩
        have hend : i * 1024 + (md i).contigHintStart + (md i).contigHint ≤ N * 1024 := by omega
        refine ⟨Nat.lt_add_of_pos_right (Nat.pos_of_ne_zero c1), hend, ?_, fun hne => ?_,
          fun hne => ?_⟩
        · have := free_index hd.run
          rwa [← Nat.add_assoc] at this
        · rcases Nat.eq_zero_or_pos (md i).contigHintStart with hz | hz
          · rw [hz] at hne ⊢
            rw [show i * 1024 + 0 - 1 = bitOff - 1 by omega]
            exact hedge (by omega) (by omega)
          · have := hd.run_left hz.ne'
            unfold indexAllocMap blockOffToOff at this
            rwa [blockBits, ← Nat.add_sub_assoc (by omega)] at this
        · have := hd.run_right (by omega)
          unfold indexAllocMap blockOffToOff at this
          rwa [blockBits, ← Nat.add_assoc] at this
      · rw [if_neg hhint]
        simp only [blockBits]
        have hrle := hd.right_le
        have hrfree := free_index hd.right_free
        rw [blockBits] at hrfree
        -- the bit before the region at the right edge is taken
        have hpre : (i + 1) * 1024 - (md i).rightFree ≠ 0 →
            bitOff ≤ (i + 1) * 1024 - (md i).rightFree ∧
              map ((i + 1) * 1024 - (md i).rightFree - 1) = true := by
          intro hne
          rcases Nat.eq_or_lt_of_le hrle with hr | hr
          · rw [hr, blockBits]
            have hz : blockOff = 0 := by
              by_contra hz
              have := hedge (by omega) (by omega)
              rw [hrfree (bitOff - 1) (by omega) (by omega)] at this
              exact absurd this (by decide)
            refine ⟨by omega, ?_⟩
            rw [show (i + 1) * 1024 - 1024 - 1 = bitOff - 1 by omega]
            exact hedge (by omega) (by omega)
          · have hset := hd.right_end hr.ne
            unfold indexAllocMap blockOffToOff at hset
            rw [blockBits, show i * 1024 + (1024 - (md i).rightFree - 1) =
              (i + 1) * 1024 - (md i).rightFree - 1 by omega] at hset
            refine ⟨?_, hset⟩
            by_contra hc
            have := hedge (by omega) (by omega)
            rw [hrfree (bitOff - 1) (by omega) (by omega)] at this
            exact absurd this (by decide)
        have hle : bitOff ≤ (i + 1) * 1024 - (md i).rightFree := by
          by_cases hz : (i + 1) * 1024 - (md i).rightFree = 0
          · have hz' : bitOff = 0 := by
              by_contra hne
              have := hedge hne (by omega)
              rw [hrfree (bitOff - 1) (by omega) (by omega)] at this
              exact absurd this (by decide)
            omega
          · exact (hpre hz).1
        obtain ⟨g1, g2⟩ := nextMdFreeRegionLoop_spec h k (i + 1) 0
          ((i + 1) * 1024 - (md i).rightFree) (md i).rightFree (by omega)
          (fun hz => ⟨by omega, by omega⟩)
          (fun _ => ⟨by omega, by omega, by
            refine hrfree.mono ?_ ?_ <;> omega⟩)
          fun hne _ => (hpre hne).2
        exact ⟨hle.trans g1, g2⟩

theorem nextMdFreeRegion_spec (h : Exact chunk)
    (hedge : o ≠ 0 → o < chunkMapBits chunk → chunk.allocMap (o - 1) = true) :
    o ≤ (nextMdFreeRegion chunk o).1 ∧ ((nextMdFreeRegion chunk o).1 < chunkMapBits chunk →
      Maximal chunk.allocMap (chunkMapBits chunk) (nextMdFreeRegion chunk o).1
        ((nextMdFreeRegion chunk o).1 + (nextMdFreeRegion chunk o).2)) := by
  rw [mapBits_eq] at hedge ⊢
  refine nextMdFreeRegionLoop_spec h.blocks _ _ _ _ _ rfl (fun _ => ?_) (fun hne => absurd rfl hne)
    hedge
  unfold offToBlockIndex offToBlockOff
  rw [blockBits]
  omega

end HardStack.Percpu.Chunk
