import HardStack.Slub.SizeClass

/-! # The copies of `kmalloc_index`

`include/linux/slub.h` of `slub_userspace`, `vmalloc_userspace` and `kmap_userspace`. The chains of
comparisons differ in the class of the sizes up to 192; the table and the caches are the same in all
three programs. -/

namespace HardStack.Slub.Copies

open HardStack.Slub.SizeClass

variable {minSize size k index192 flags : ℕ}

/-- The programs with a copy. -/
inductive Program
  | slub
  | vmalloc
  | kmap
  deriving DecidableEq

/-- `kmalloc_index` with the index of the sizes from 129 to 192. -/
def kmallocIndexWith (index192 minSize size : ℕ) : ℕ :=
  if size = 0 then 0
  else if size ≤ minSize then kmallocShiftLow minSize
  else if minSize ≤ 32 ∧ 64 < size ∧ size ≤ 96 then 1
  else if minSize ≤ 64 ∧ 128 < size ∧ size ≤ 192 then index192
  else if size ≤ 8 then 3
  else if size ≤ 16 then 4
  else if size ≤ 32 then 5
  else if size ≤ 64 then 6
  else if size ≤ 128 then 7
  else if size ≤ 256 then 8
  else if size ≤ 512 then 9
  else if size ≤ 1024 then 10
  else if size ≤ 2 * 1024 then 11
  else if size ≤ 4 * 1024 then 12
  else if size ≤ 8 * 1024 then 13
  else if size ≤ 16 * 1024 then 14
  else if size ≤ 32 * 1024 then 15
  else if size ≤ 64 * 1024 then 16
  else if size ≤ 128 * 1024 then 17
  else if size ≤ 256 * 1024 then 18
  else if size ≤ 512 * 1024 then 19
  else if size ≤ 1024 * 1024 then 20
  else if size ≤ 2 * 1024 * 1024 then 21
  else if size ≤ 4 * 1024 * 1024 then 22
  else if size ≤ 8 * 1024 * 1024 then 23
  else if size ≤ 16 * 1024 * 1024 then 24
  else if size ≤ 32 * 1024 * 1024 then 25
  else if size ≤ 64 * 1024 * 1024 then 26
  else 2 ^ 32 - 1

/-- `kmalloc_index` of a program. -/
def Program.kmallocIndex : Program → ℕ → ℕ → ℕ
  | slub => kmallocIndexWith 2
  | vmalloc => kmallocIndexWith 0
  | kmap => kmallocIndexWith 0

/-- The choice of `kmalloc` for a size that is known when it is compiled. -/
def Program.kmallocConstant (program : Program) (minSize : ℕ) (caches : KmallocCaches)
    (size flags : ℕ) : Selected :=
  let index := program.kmallocIndex minSize size
  if index = 0 then .zeroSizePtr else entry caches (kmallocType flags) index

/-- **The copies match** on a size: they give one index, and in every program both ways of `kmalloc` select
one cache. -/
def Match (minSize size flags : ℕ) : Prop :=
  (∀ p q : Program, p.kmallocIndex minSize size = q.kmallocIndex minSize size) ∧
    (size ≤ KMALLOC_MAX_CACHE_SIZE → ∀ p : Program, ∃ s,
      kmallocSlab (setupKmallocCacheIndexTable minSize) (createKmallocCaches minSize) size flags = .cache s ∧
        p.kmallocConstant minSize (createKmallocCaches minSize) size flags = .cache s)

/-! ### Where they match -/

theorem kmallocIndexWith_two : kmallocIndexWith 2 = kmallocIndex := rfl

/-- The sizes of the class in question. -/
def Class192 (minSize size : ℕ) : Prop := minSize ≤ 64 ∧ 128 < size ∧ size ≤ 192

theorem kmallocIndexWith_class (h : Class192 minSize size) :
    kmallocIndexWith index192 minSize size = index192 := by
  obtain ⟨hmin, hlo, hhi⟩ := h
  unfold kmallocIndexWith
  rw [if_neg (by omega), if_neg (by omega), if_neg (by omega), if_pos ⟨hmin, hlo, hhi⟩]

theorem kmallocIndexWith_other (h : ¬ Class192 minSize size) :
    kmallocIndexWith index192 minSize size = kmallocIndex minSize size := by
  unfold Class192 at h
  unfold kmallocIndexWith kmallocIndex
  rw [if_neg h, if_neg h]

/-- Outside the class every program has the index of `slub_userspace`. -/
theorem Program.kmallocIndex_other (h : ¬ Class192 minSize size) (p : Program) :
    p.kmallocIndex minSize size = SizeClass.kmallocIndex minSize size := by
  cases p
  · rfl
  · exact kmallocIndexWith_other h
  · exact kmallocIndexWith_other h

/-- The run-time choice finds no cache for the sizes that the table misses. -/
theorem kmallocSlab_missed (h3 : 3 ≤ k) (h8 : k ≤ 8) (hpos : 1 ≤ size) (hsize : size ≤ 192)
    (h : Missed k size) :
    kmallocSlab (setupKmallocCacheIndexTable (2 ^ k)) (createKmallocCaches (2 ^ k)) size flags = .null := by
  obtain ⟨hidx, htable⟩ := table_small k (by omega) h3 size (by omega) hpos
  have hentry := entry_created k (by omega) h3 _ (kmallocType_lt flags) _ hidx
  rw [if_pos h] at htable
  unfold kmallocSlab
  rw [if_pos hsize, if_neg (by omega)]
  exact hentry.trans (if_neg htable)

/-- **The copies match** on every size but those of the class whose index two of them have wrong, and
those that the table misses. -/
theorem match_iff (h3 : 3 ≤ k) (h8 : k ≤ 8) (hpos : 1 ≤ size) (flags : ℕ) :
    Match (2 ^ k) size flags ↔ ¬ (2 ^ k ≤ 64 ∧ 128 < size ∧ size ≤ 192) ∧
      ¬ (2 ^ k = 64 ∧ 89 ≤ size ∧ size ≤ 96) ∧ ¬ (2 ^ k = 256 ∧ 65 ≤ size ∧ size ≤ 88) := by
  have h64 : 2 ^ k = 64 ↔ k = 6 := Nat.pow_right_inj (n := 6) Nat.one_lt_two
  have h256 : 2 ^ k = 256 ↔ k = 8 := Nat.pow_right_inj (n := 8) Nat.one_lt_two
  have hmissed : ¬ Missed k size ↔
      ¬ (2 ^ k = 64 ∧ 89 ≤ size ∧ size ≤ 96) ∧ ¬ (2 ^ k = 256 ∧ 65 ≤ size ∧ size ≤ 88) := by
    rw [h64, h256, ← not_or]
    rfl
  rw [← hmissed]
  have hmax : 192 ≤ KMALLOC_MAX_CACHE_SIZE := by decide
  constructor
  · rintro ⟨hindex, hcache⟩
    constructor
    · intro hclass
      have hslub : Program.slub.kmallocIndex (2 ^ k) size = 2 := kmallocIndexWith_class hclass
      have hkmap : Program.kmap.kmallocIndex (2 ^ k) size = 0 := kmallocIndexWith_class hclass
      have := hindex .slub .kmap
      omega
    · intro hm
      have hle : size ≤ 192 := by
        unfold Missed at hm
        omega
      obtain ⟨s, hs, -⟩ := hcache (hle.trans hmax) .slub
      rw [kmallocSlab_missed h3 h8 hpos hle hm] at hs
      cases hs
  · rintro ⟨hclass, hm⟩
    refine ⟨fun p q => by rw [p.kmallocIndex_other hclass, q.kmallocIndex_other hclass], fun hle p => ?_⟩
    have hagrees : Agrees (2 ^ k) size flags := by
      rcases Nat.lt_or_ge 192 size with h | h
      · exact agrees_large h3 h8 h flags
      · exact (agrees_small h3 h8 hpos h flags).mpr hm
    unfold Agrees at hagrees
    rw [if_pos hle] at hagrees
    obtain ⟨s, hslab, -, hconst⟩ := hagrees
    refine ⟨s, hslab, ?_⟩
    unfold Program.kmallocConstant
    rw [p.kmallocIndex_other hclass]
    exact hconst

theorem match_iff_hundred : Match 64 100 0 :=
  (match_iff (k := 6) (by decide) (by decide) (by decide) 0).mpr ⟨by decide, by decide, by decide⟩

/-- 150 bytes with the minimum of the `Makefile`: two programs give no object. -/
theorem not_match_150 : Program.slub.kmallocIndex 64 150 = 2 ∧ Program.vmalloc.kmallocIndex 64 150 = 0 ∧
    ¬ Match 64 150 0 := by
  have hslub : Program.slub.kmallocIndex 64 150 = 2 := by decide
  have hvmalloc : Program.vmalloc.kmallocIndex 64 150 = 0 := by decide
  refine ⟨hslub, hvmalloc, fun h => ?_⟩
  have := h.1 .slub .vmalloc
  omega

end HardStack.Slub.Copies
