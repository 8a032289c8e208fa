import Mathlib

/-! # The size classes of `kmalloc`

`mm/slub.c` and `include/linux/slub.h`. A cache is its type and its object size; the caches are
created from an empty array, and every creation succeeds. `KMALLOC_MIN_SIZE` is a parameter. -/

namespace HardStack.Slub.SizeClass

def KMALLOC_SHIFT_HIGH : ℕ := 12 + 1
def KMALLOC_MAX_CACHE_SIZE : ℕ := 1 <<< KMALLOC_SHIFT_HIGH
def KMALLOC_NORMAL : ℕ := 0
def KMALLOC_RECLAIM : ℕ := 1
def GFP_RECLAIMABLE : ℕ := 0x10

def fls (x : ℕ) : ℕ := Nat.size x

/-- `KMALLOC_SHIFT_LOW`. -/
def kmallocShiftLow (minSize : ℕ) : ℕ := fls minSize - 1

def kmallocType (flags : ℕ) : ℕ :=
  if flags &&& GFP_RECLAIMABLE ≠ 0 then KMALLOC_RECLAIM else KMALLOC_NORMAL

/-! ### The table -/

def sizeIndexElem (bytes : ℕ) : ℕ := (bytes - 1) / 8

def sizeIndex : List ℕ :=
  [3, 4, 5, 5, 6, 6, 6, 6, 1, 1, 1, 1, 7, 7, 7, 7, 2, 2, 2, 2, 2, 2, 2, 2]

/-- The loop that sends the sizes below `KMALLOC_MIN_SIZE` to the smallest cache, from `i` on. -/
def patchLow (minSize : ℕ) : ℕ → ℕ → List ℕ → List ℕ
  | 0, _, table => table
  | fuel + 1, i, table =>
    if i < minSize then
      let elem := sizeIndexElem i
      if table.length ≤ elem then table
      else patchLow minSize fuel (i + 8) (table.set elem (kmallocShiftLow minSize))
    else table

/-- `for (i = start; i < stop; i += 8) size_index[size_index_elem(i)] = index;` -/
def patch (stop index : ℕ) : ℕ → ℕ → List ℕ → List ℕ
  | 0, _, table => table
  | fuel + 1, i, table =>
    if i < stop then patch stop index fuel (i + 8) (table.set (sizeIndexElem i) index) else table

/-- `setup_kmalloc_cache_index_table`; every loop has fewer rounds than its bound. -/
def setupKmallocCacheIndexTable (minSize : ℕ) : List ℕ :=
  let table := patchLow minSize minSize 8 sizeIndex
  let table := if 64 ≤ minSize then patch 96 7 96 (64 + 8) table else table
  if 128 ≤ minSize then patch 193 8 193 (128 + 8) table else table

/-! ### The caches -/

structure KmemCache where
  type : ℕ
  objectSize : ℕ
  deriving DecidableEq

/-- The sizes of `kmalloc_info`. -/
def kmallocInfoSize : List ℕ :=
  [0, 96, 192, 8, 16, 32, 64, 128, 256, 512, 1024, 2048, 4096, 8192, 16384, 32768, 65536, 131072,
    262144, 524288, 1048576, 2097152, 4194304, 8388608, 16777216, 33554432, 67108864]

/-- `kmalloc_caches[type][idx]` in a row, where `none` is `NULL`. -/
abbrev KmallocCaches := List (Option KmemCache)

def place (type idx : ℕ) : ℕ := type * (KMALLOC_SHIFT_HIGH + 1) + idx

def KmallocCaches.get (caches : KmallocCaches) (type idx : ℕ) : Option KmemCache :=
  caches.getD (place type idx) none

def newKmallocCache (idx type : ℕ) (caches : KmallocCaches) : KmallocCaches :=
  caches.set (place type idx) (some ⟨type, kmallocInfoSize.getD idx 0⟩)

/-- What `create_kmalloc_caches` does for a type and an index. -/
def createRound (minSize type : ℕ) (caches : KmallocCaches) (i : ℕ) : KmallocCaches :=
  let caches := if caches.get type i = none then newKmallocCache i type caches else caches
  let caches := if minSize ≤ 32 ∧ i = 6 ∧ caches.get type 1 = none then newKmallocCache 1 type caches
    else caches
  if minSize ≤ 64 ∧ i = 7 ∧ caches.get type 2 = none then newKmallocCache 2 type caches else caches

/-- Its inner loop. -/
def createType (minSize : ℕ) (caches : KmallocCaches) (type : ℕ) : KmallocCaches :=
  (List.range' (kmallocShiftLow minSize) (KMALLOC_SHIFT_HIGH + 1 - kmallocShiftLow minSize)).foldl
    (createRound minSize type) caches

/-- `create_kmalloc_caches`. -/
def createKmallocCaches (minSize : ℕ) : KmallocCaches :=
  [KMALLOC_NORMAL, KMALLOC_RECLAIM].foldl (createType minSize) (List.replicate (place 2 0) none)

/-! ### The two selections -/

/-- What a selection returns. -/
inductive Selected
  | null
  | zeroSizePtr
  | cache (s : KmemCache)
  deriving DecidableEq

/-- The entry of the array at an index. -/
def entry (caches : KmallocCaches) (type index : ℕ) : Selected :=
  match caches.get type index with
  | none => .null
  | some s => .cache s

/-- `kmalloc_slab`. -/
def kmallocSlab (table : List ℕ) (caches : KmallocCaches) (size flags : ℕ) : Selected :=
  if size ≤ 192 then
    if size = 0 then .zeroSizePtr
    else entry caches (kmallocType flags) (table.getD (sizeIndexElem size) 0)
  else if KMALLOC_MAX_CACHE_SIZE < size then .null
  else entry caches (kmallocType flags) (fls (size - 1))

/-- `kmalloc_index`, where `-1` is the largest `unsigned int`. -/
def kmallocIndex (minSize size : ℕ) : ℕ :=
  if size = 0 then 0
  else if size ≤ minSize then kmallocShiftLow minSize
  else if minSize ≤ 32 ∧ 64 < size ∧ size ≤ 96 then 1
  else if minSize ≤ 64 ∧ 128 < size ∧ size ≤ 192 then 2
  else if size ≤ 8 then 3
  else if size ≤ 16 then 4
  else if size ≤ 32 then 5
  else if size ≤ 64 then 6
  else if size ≤ 128 then 7
  else if size ≤ 256 then 8
  else if size ≤ 512 then 9
  else if size ≤ 1024 then 10
  else if size ≤ 2 * 1024 then 11
  else if size ≤ 4 * 1024 then 12
  else if size ≤ 8 * 1024 then 13
  else if size ≤ 16 * 1024 then 14
  else if size ≤ 32 * 1024 then 15
  else if size ≤ 64 * 1024 then 16
  else if size ≤ 128 * 1024 then 17
  else if size ≤ 256 * 1024 then 18
  else if size ≤ 512 * 1024 then 19
  else if size ≤ 1024 * 1024 then 20
  else if size ≤ 2 * 1024 * 1024 then 21
  else if size ≤ 4 * 1024 * 1024 then 22
  else if size ≤ 8 * 1024 * 1024 then 23
  else if size ≤ 16 * 1024 * 1024 then 24
  else if size ≤ 32 * 1024 * 1024 then 25
  else if size ≤ 64 * 1024 * 1024 then 26
  else 2 ^ 32 - 1

/-- The choice of `kmalloc` for a size that is known when it is compiled. -/
def kmallocConstant (minSize : ℕ) (caches : KmallocCaches) (size flags : ℕ) : Selected :=
  let index := kmallocIndex minSize size
  if index = 0 then .zeroSizePtr else entry caches (kmallocType flags) index

/-- **The size classes agree** on a size: a cache that was created holds it, and both ways select it. -/
def Agrees (minSize size flags : ℕ) : Prop :=
  let table := setupKmallocCacheIndexTable minSize
  let caches := createKmallocCaches minSize
  if size ≤ KMALLOC_MAX_CACHE_SIZE then
    ∃ s, kmallocSlab table caches size flags = .cache s ∧ size ≤ s.objectSize ∧
      kmallocConstant minSize caches size flags = .cache s
  else kmallocSlab table caches size flags = .null

/-! ### Where they agree -/

/-- The caches that exist when the smallest one has the index `k`. -/
def Created (k idx : ℕ) : Prop :=
  (k ≤ idx ∧ idx ≤ KMALLOC_SHIFT_HIGH) ∨ (idx = 1 ∧ k ≤ 5) ∨ (idx = 2 ∧ k ≤ 6)

instance (k idx : ℕ) : Decidable (Created k idx) := by
  unfold Created
  infer_instance

/-- The sizes that the table sends to a cache that was not created. -/
def Missed (k size : ℕ) : Prop := (k = 6 ∧ 89 ≤ size ∧ size ≤ 96) ∨ (k = 8 ∧ 65 ≤ size ∧ size ≤ 88)

instance (k size : ℕ) : Decidable (Missed k size) := by
  unfold Missed
  infer_instance

theorem kmallocType_lt (flags : ℕ) : kmallocType flags < 2 := by
  unfold kmallocType KMALLOC_RECLAIM KMALLOC_NORMAL
  split <;> omega

/-- **`create_kmalloc_caches`** creates these caches, of both types. -/
theorem entry_created : ∀ k < 9, 3 ≤ k → ∀ type < 2, ∀ idx ≤ KMALLOC_SHIFT_HIGH,
    entry (createKmallocCaches (2 ^ k)) type idx =
      if Created k idx then .cache ⟨type, kmallocInfoSize.getD idx 0⟩ else .null := by
  decide +kernel

/-- The index that the patched table has for a size. -/
def tableIndex (minSize size : ℕ) : ℕ :=
  (setupKmallocCacheIndexTable minSize).getD (sizeIndexElem size) 0

/-- The entry of the table is the index of the chain of comparisons, with a cache that holds the size,
unless the size is missed. -/
def TableRight (k size : ℕ) : Prop :=
  tableIndex (2 ^ k) size ≤ KMALLOC_SHIFT_HIGH ∧
    if Missed k size then ¬ Created k (tableIndex (2 ^ k) size)
    else Created k (tableIndex (2 ^ k) size) ∧
      tableIndex (2 ^ k) size = kmallocIndex (2 ^ k) size ∧ tableIndex (2 ^ k) size ≠ 0 ∧
      size ≤ kmallocInfoSize.getD (tableIndex (2 ^ k) size) 0

instance (k size : ℕ) : Decidable (TableRight k size) := by
  unfold TableRight
  infer_instance

/-- **The patched table.** -/
theorem table_small : ∀ k < 9, 3 ≤ k → ∀ size < 193, 1 ≤ size → TableRight k size := by
  decide +kernel

/-- Above the table the index is the number of bits. -/
theorem fls_pred {n size : ℕ} (h1 : 2 ^ n < size) (h2 : size ≤ 2 ^ (n + 1)) :
    fls (size - 1) = n + 1 := by
  unfold fls
  have hle : Nat.size (size - 1) ≤ n + 1 := Nat.size_le.mpr (by omega)
  have hlt : n < Nat.size (size - 1) := Nat.lt_size.mpr (by omega)
  omega

theorem kmallocShiftLow_pow (k : ℕ) : kmallocShiftLow (2 ^ k) = k := by
  unfold kmallocShiftLow fls
  rw [Nat.size_pow, Nat.add_sub_cancel]

/-- **Above the table** the chain of comparisons counts the bits as well. -/
theorem kmallocIndex_large {k size : ℕ} (hk : k ≤ 8) (h1 : 193 ≤ size)
    (h2 : size ≤ KMALLOC_MAX_CACHE_SIZE) :
    kmallocIndex (2 ^ k) size = fls (size - 1) ∧ 8 ≤ fls (size - 1) ∧
      fls (size - 1) ≤ KMALLOC_SHIFT_HIGH ∧ size ≤ 2 ^ fls (size - 1) := by
  have hmin : 2 ^ k ≤ 2 ^ 8 := Nat.pow_le_pow_right (by decide) hk
  have hmax : KMALLOC_MAX_CACHE_SIZE = 8192 := by decide
  have hsmall : size ≤ 2 ^ k → k = 8 := by
    intro hle
    by_contra hne
    have : 2 ^ k ≤ 2 ^ 7 := Nat.pow_le_pow_right (by decide) (by omega)
    omega
  unfold kmallocIndex
  rw [if_neg (by omega), kmallocShiftLow_pow]
  by_cases hle : size ≤ 2 ^ k
  · obtain rfl := hsmall hle
    rw [if_pos hle, fls_pred (n := 7) (by omega) hle]
    exact ⟨rfl, le_rfl, by decide, hle⟩
  · rw [if_neg hle, if_neg (by omega), if_neg (by omega)]
    -- the class of the size
    obtain ⟨n, hn7, hn12, hlo, hhi⟩ : ∃ n, 7 ≤ n ∧ n ≤ 12 ∧ 2 ^ n < size ∧ size ≤ 2 ^ (n + 1) := by
      rcases Nat.lt_or_ge 512 size with h | h
      · rcases Nat.lt_or_ge 1024 size with h | h
        · rcases Nat.lt_or_ge 2048 size with h | h
          · rcases Nat.lt_or_ge 4096 size with h | h
            · exact ⟨12, by omega, by omega, by omega, by omega⟩
            · exact ⟨11, by omega, by omega, by omega, by omega⟩
          · exact ⟨10, by omega, by omega, by omega, by omega⟩
        · exact ⟨9, by omega, by omega, by omega, by omega⟩
      · rcases Nat.lt_or_ge 256 size with h | h
        · exact ⟨8, by omega, by omega, by omega, by omega⟩
        · exact ⟨7, by omega, by omega, by omega, by omega⟩
    rw [fls_pred hlo hhi]
    refine ⟨?_, by omega, by unfold KMALLOC_SHIFT_HIGH; omega, hhi⟩
    interval_cases n
    all_goals
      repeat rw [if_neg (by omega)]
      rw [if_pos (by omega)]

theorem agrees_small {k size : ℕ} (h3 : 3 ≤ k) (h8 : k ≤ 8) (hpos : 1 ≤ size) (hsize : size ≤ 192)
    (flags : ℕ) : Agrees (2 ^ k) size flags ↔ ¬ Missed k size := by
  obtain ⟨hidx, htable⟩ := table_small k (by omega) h3 size (by omega) hpos
  have hslab : kmallocSlab (setupKmallocCacheIndexTable (2 ^ k)) (createKmallocCaches (2 ^ k)) size
      flags = entry (createKmallocCaches (2 ^ k)) (kmallocType flags) (tableIndex (2 ^ k) size) := by
    unfold kmallocSlab
    rw [if_pos hsize, if_neg (by omega)]
    rfl
  have hentry := entry_created k (by omega) h3 _ (kmallocType_lt flags) _ hidx
  have hmax : size ≤ KMALLOC_MAX_CACHE_SIZE := hsize.trans (by decide)
  unfold Agrees
  dsimp only
  rw [if_pos hmax, hslab, hentry]
  constructor
  · rintro ⟨s, hs, -⟩ hm
    rw [if_pos hm] at htable
    rw [if_neg htable] at hs
    exact absurd hs (by simp)
  · intro hm
    rw [if_neg hm] at htable
    obtain ⟨hc, heq, hne, hle⟩ := htable
    refine ⟨_, if_pos hc, hle, ?_⟩
    unfold kmallocConstant
    dsimp only
    rw [← heq, if_neg hne, hentry, if_pos hc]

theorem agrees_large {k size : ℕ} (h3 : 3 ≤ k) (h8 : k ≤ 8) (hsize : 192 < size) (flags : ℕ) :
    Agrees (2 ^ k) size flags := by
  unfold Agrees
  dsimp only
  by_cases hmax : size ≤ KMALLOC_MAX_CACHE_SIZE
  · obtain ⟨hidx, h1, h2, hle⟩ := kmallocIndex_large h8 hsize hmax
    have hc : Created k (fls (size - 1)) := Or.inl ⟨by omega, h2⟩
    have hinfo : ∀ i ≤ KMALLOC_SHIFT_HIGH, 8 ≤ i → kmallocInfoSize.getD i 0 = 2 ^ i := by decide
    have hentry := entry_created k (by omega) h3 _ (kmallocType_lt flags) _ h2
    rw [if_pos hc] at hentry
    rw [if_pos hmax]
    refine ⟨⟨kmallocType flags, kmallocInfoSize.getD (fls (size - 1)) 0⟩, ?_,
      by rw [hinfo _ h2 h1]; exact hle, ?_⟩
    · unfold kmallocSlab
      rw [if_neg (by omega), if_neg (by omega)]
      exact hentry
    · unfold kmallocConstant
      dsimp only
      rw [hidx, if_neg (by omega)]
      exact hentry
  · unfold kmallocSlab
    rw [if_neg hmax, if_neg (by omega), if_pos (by omega)]

/-- **The size classes agree** for every size but the ones whose table entry is not patched right:
`89` to `96` for a minimum of `64`, where the loop stops before `96`, and `65` to `88` for a minimum of
`256`, where the same loop undoes the first one. -/
theorem agrees_iff {k size : ℕ} (h3 : 3 ≤ k) (h8 : k ≤ 8) (hpos : 1 ≤ size) (flags : ℕ) :
    Agrees (2 ^ k) size flags ↔
      ¬ (2 ^ k = 64 ∧ 89 ≤ size ∧ size ≤ 96) ∧ ¬ (2 ^ k = 256 ∧ 65 ≤ size ∧ size ≤ 88) := by
  have h64 : 2 ^ k = 64 ↔ k = 6 := Nat.pow_right_inj (n := 6) Nat.one_lt_two
  have h256 : 2 ^ k = 256 ↔ k = 8 := Nat.pow_right_inj (n := 8) Nat.one_lt_two
  rw [h64, h256, ← not_or]
  rcases Nat.lt_or_ge 192 size with h | h
  · refine iff_of_true (agrees_large h3 h8 h flags) ?_
    omega
  · exact agrees_small h3 h8 hpos h flags

/-- A request of 100 bytes with the minimum of the `Makefile`. -/
theorem agrees_iff_hundred : Agrees 64 100 0 :=
  (agrees_iff (k := 6) (by decide) (by decide) (by decide) 0).mpr ⟨by decide, by decide⟩

/-- With that minimum there is no cache for 96 bytes. -/
theorem not_agrees : ¬ ∀ k, 3 ≤ k → k ≤ 8 → ∀ size, 1 ≤ size → ∀ flags, Agrees (2 ^ k) size flags := by
  intro h
  obtain ⟨s, hs, -⟩ := h 6 (by decide) (by decide) 96 (by decide) 0
  have hnull : kmallocSlab (setupKmallocCacheIndexTable (2 ^ 6)) (createKmallocCaches (2 ^ 6)) 96 0 =
      .null := by decide +kernel
  rw [hnull] at hs
  exact absurd hs (by simp)

end HardStack.Slub.SizeClass
