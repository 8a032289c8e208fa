import HardStack.Memblock.Run

/-! # `early_init_dt_add_memory_arch`

A range of a device tree in `u64` is cut to whole pages between two limits and passed to `memblock_add`
as two `phys_addr_t`. The cutting goes wrong in three places: `ALIGN` lacks the complement of its mask,
so that an unaligned base becomes a number below a page; a range that starts below the lower limit is
taken as it is, or, if it ends there too, wraps to the rest of the address space; and the last byte of
the top page is lost to `memblock_cap_size`. Outside these cases exactly the usable pages are added. -/

namespace HardStack.Memblock.EarlyInit

open HardStack.Lib.Dyadic
open HardStack.Memblock.Model HardStack.Memblock.Regions HardStack.Memblock.Range
open HardStack.Memblock.Run

/-! ### The function -/

/-- `CONFIG_MEMBLOCK_BASE` of the `Makefile`. -/
def CONFIG_MEMBLOCK_BASE : ℕ := 0x60000000

def MAX_MEMBLOCK_ADDR : ℕ := 2 ^ 32 - 1

/-- `PAGE_MASK` as a `u64`: the `int` is extended by its sign. -/
def PAGE_MASK : ℕ := (2 ^ 64 - 1) ^^^ (PAGE_SIZE - 1)

/-- `x - y` of two `u64`. -/
def sub64 (x y : ℕ) : ℕ := (x + (2 ^ 64 - y)) % 2 ^ 64

/-- `PAGE_ALIGN` of a `u64`. -/
def pageAlign64 (addr : ℕ) : ℕ := (addr + PAGE_SIZE - 1) % 2 ^ 64 &&& (PAGE_SIZE - 1)

/-- `base & ~PAGE_MASK`. -/
def pageOffset (base : ℕ) : ℕ := base &&& (PAGE_SIZE - 1)

/-- The two cuts to whole pages: `base` and `size` after them. -/
def wholePages (base size : ℕ) : ℕ × ℕ :=
  -- `PAGE_ALIGNED(base)` looks at an `unsigned long`
  if base % 2 ^ 32 &&& (PAGE_SIZE - 1) = 0 then (base, size &&& PAGE_MASK)
  else (pageAlign64 base, sub64 size (PAGE_SIZE - pageOffset base) &&& PAGE_MASK)

/-- `base` and `size` at the call of `memblock_add`, none if the function has returned before. -/
def clipped (physOffset base size : ℕ) : Option (ℕ × ℕ) :=
  if size < PAGE_SIZE - pageOffset base then none
  else
    let (base, size) := wholePages base size
    if base > MAX_MEMBLOCK_ADDR then none
    else
      let size := if sub64 ((base + size) % 2 ^ 64) 1 > MAX_MEMBLOCK_ADDR then
          (sub64 MAX_MEMBLOCK_ADDR base + 1) % 2 ^ 64 else size
      if (base + size) % 2 ^ 64 < physOffset then
        some (physOffset, sub64 size (sub64 physOffset base))
      else some (base, size)

/-- `early_init_dt_add_memory_arch`, with the return value of `memblock_add`, which it drops. -/
def earlyInitDtAddMemoryArch (c : Config) (n : ℕ) (s : State) (base size : ℕ) : Option (State × ℤ) :=
  match clipped c.MEMBLOCK_BASE base size with
  | none => some (s, 0)
  | some (base, size) => memblockAdd c n s (base % 2 ^ 32) (size % 2 ^ 32)

/-! ### What it is for -/

/-- The pages that lie wholly inside the range and between the limits. -/
def usablePages (c : Config) (base size : ℕ) : Set ℕ :=
  {x | ∃ p, base ≤ p * PAGE_SIZE ∧ p * PAGE_SIZE + PAGE_SIZE ≤ base + size ∧
    c.MEMBLOCK_BASE ≤ p * PAGE_SIZE ∧ p * PAGE_SIZE + (PAGE_SIZE - 1) ≤ MAX_MEMBLOCK_ADDR ∧
    p * PAGE_SIZE ≤ x ∧ x < p * PAGE_SIZE + PAGE_SIZE}

/-- From every state with the representation invariant, unless `memblock_add` runs out of memory, the
call adds the usable pages and nothing else. -/
def AddsUsable (c : Config) (base size : ℕ) : Prop :=
  ∀ n s s', Rep s.memory → Rep s.reserved → s.currentLimit ≤ PHYS_ADDR_MAX →
    earlyInitDtAddMemoryArch c n s base size = some (s', 0) →
    covered s'.memory.regions = covered s.memory.regions ∪ usablePages c base size

/-! ### What it adds -/

section

variable {c : Config} {n base size : ℕ} {s s' : State}

/-- The addresses that the call adds. -/
def added (c : Config) (base size : ℕ) : Set ℕ :=
  match clipped c.MEMBLOCK_BASE base size with
  | none => ∅
  | some (b, z) => range (b % 2 ^ 32) (z % 2 ^ 32)

theorem covered_earlyInit (hmem : Rep s.memory) (hres : Rep s.reserved)
    (hlimit : s.currentLimit ≤ PHYS_ADDR_MAX)
    (he : earlyInitDtAddMemoryArch c n s base size = some (s', 0)) :
    covered s'.memory.regions = covered s.memory.regions ∪ added c base size := by
  unfold earlyInitDtAddMemoryArch at he
  unfold added
  cases hc : clipped c.MEMBLOCK_BASE base size with
  | none =>
    rw [hc] at he
    cases he
    rw [Set.union_empty]
  | some r =>
    rw [hc] at he
    have hwf : StWf 0 s := ⟨fun k => by cases k; exacts [hmem.wf, hres.wf], hlimit⟩
    obtain ⟨-, happ⟩ := addRange_spec (Nat.zero_le 1) (doubleArray_spec (Nat.zero_le 1) n) hwf
      (fun hg => absurd hg (lt_irrefl 0)) he
    obtain ⟨evs, -, hcov, -⟩ := happ.done rfl
    exact hcov

/-- The static `memblock` has room for one region. -/
theorem earlyInit_init (c : Config) (base size : ℕ) :
    ∃ s', earlyInitDtAddMemoryArch c 0 init base size = some (s', 0) := by
  unfold earlyInitDtAddMemoryArch
  cases clipped c.MEMBLOCK_BASE base size with
  | none => exact ⟨_, rfl⟩
  | some r =>
    dsimp only
    unfold memblockAdd addRange
    dsimp only
    split_ifs with h1 h2
    · exact ⟨_, rfl⟩
    · exact ⟨_, rfl⟩
    · exact absurd rfl h2

theorem addsUsable_iff_added :
    AddsUsable c base size ↔ added c base size = usablePages c base size := by
  constructor
  · intro h
    have hrep := rep_of_wf initType_wf
    obtain ⟨s', he⟩ := earlyInit_init c base size
    have h1 := h 0 init s' hrep hrep le_rfl he
    have h2 := covered_earlyInit hrep hrep le_rfl he
    have hempty : covered init.memory.regions = ∅ := by
      ext x
      show x ∈ covered [⟨0, 0, 0⟩] ↔ _
      simp [Region.fin]
    rw [hempty, Set.empty_union] at h1 h2
    exact h2.symm.trans h1
  · intro h n s s' hmem hres hlimit he
    rw [covered_earlyInit hmem hres hlimit he, h]

end

/-! ### The arithmetic -/

section

variable {base size b z : ℕ}

theorem pageOffset_eq (base : ℕ) : pageOffset base = base % 4096 :=
  Nat.and_two_pow_sub_one_eq_mod base 12

theorem and_PAGE_MASK (hz : z < 2 ^ 64) : z &&& PAGE_MASK = z / 4096 * 4096 :=
  and_clear_low (k := 12) (n := 64) (by decide) hz

/-- An aligned base stays; any other base is replaced by a number below a page. -/
theorem wholePages_eq (hw : base + size < 2 ^ 64) (hsize : 4096 - base % 4096 ≤ size) :
    wholePages base size = if base % 4096 = 0 then (base, size / 4096 * 4096)
      else (base % 4096 - 1, (size - (4096 - base % 4096)) / 4096 * 4096) := by
  have hr : base % 2 ^ 32 &&& (PAGE_SIZE - 1) = base % 4096 := by
    rw [show PAGE_SIZE - 1 = 2 ^ 12 - 1 from rfl, Nat.and_two_pow_sub_one_eq_mod]
    omega
  have halign : pageAlign64 base = (base + 4095) % 4096 := by
    unfold pageAlign64
    rw [show PAGE_SIZE - 1 = 2 ^ 12 - 1 from rfl, Nat.and_two_pow_sub_one_eq_mod,
      show base + PAGE_SIZE - 1 = base + 4095 from rfl]
    omega
  have hsub : sub64 size (PAGE_SIZE - pageOffset base) = size - (4096 - base % 4096) := by
    unfold sub64
    rw [pageOffset_eq, show PAGE_SIZE = 4096 from rfl]
    omega
  unfold wholePages
  rw [hr]
  split_ifs with h
  · rw [and_PAGE_MASK (by omega)]
  · rw [halign, hsub, and_PAGE_MASK (by omega),
      show (base + 4095) % 4096 = base % 4096 - 1 by omega]

/-- The size after the cut at the upper limit. -/
theorem clip_max (hbz : b + z < 2 ^ 64) (hb : b < 2 ^ 32) :
    (if sub64 ((b + z) % 2 ^ 64) 1 > MAX_MEMBLOCK_ADDR then
      (sub64 MAX_MEMBLOCK_ADDR b + 1) % 2 ^ 64 else z) =
      if b + z = 0 ∨ 2 ^ 32 < b + z then 2 ^ 32 - b else z := by
  have hone : sub64 ((b + z) % 2 ^ 64) 1 > MAX_MEMBLOCK_ADDR ↔ b + z = 0 ∨ 2 ^ 32 < b + z := by
    unfold sub64 MAX_MEMBLOCK_ADDR
    omega
  have htwo : (sub64 MAX_MEMBLOCK_ADDR b + 1) % 2 ^ 64 = 2 ^ 32 - b := by
    unfold sub64 MAX_MEMBLOCK_ADDR
    omega
  rw [htwo]
  exact if_congr hone rfl rfl

/-- What is added from a base and a size in whole pages. -/
theorem added_eq {c : Config} (hc : c.MEMBLOCK_BASE = CONFIG_MEMBLOCK_BASE)
    (hsize : 4096 - base % 4096 ≤ size) (hp : wholePages base size = (b, z)) (hbz : b + z < 2 ^ 64) :
    added c base size =
      if b ≥ 2 ^ 32 ∨ b + z = 0 then ∅
      else if b + z < 0x60000000 then Set.Ico 0x60000000 (2 ^ 32 - 1)
      else if b + z ≤ 2 ^ 32 then Set.Ico b (b + min (z % 2 ^ 32) (2 ^ 32 - 1 - b))
      else Set.Ico b (b + min ((2 ^ 32 - b) % 2 ^ 32) (2 ^ 32 - 1 - b)) := by
  have hsmall : ¬ size < PAGE_SIZE - pageOffset base := by
    rw [pageOffset_eq, show PAGE_SIZE = 4096 from rfl]
    omega
  unfold added clipped
  rw [if_neg hsmall, hp, hc]
  dsimp only
  by_cases hb : b ≥ 2 ^ 32
  · rw [if_pos (show b > MAX_MEMBLOCK_ADDR by unfold MAX_MEMBLOCK_ADDR; omega), if_pos (Or.inl hb)]
  rw [if_neg (show ¬ b > MAX_MEMBLOCK_ADDR by unfold MAX_MEMBLOCK_ADDR; omega),
    clip_max hbz (by omega), show CONFIG_MEMBLOCK_BASE = 0x60000000 from rfl]
  by_cases hz : b + z = 0
  · -- the size becomes `2 ^ 32`, which is 0 as a `phys_addr_t`
    obtain ⟨rfl, rfl⟩ : b = 0 ∧ z = 0 := by omega
    rw [if_pos (Or.inl rfl), if_neg (by decide), if_pos (Or.inr rfl)]
    exact range_empty (by decide)
  rw [if_neg (show ¬ (b ≥ 2 ^ 32 ∨ b + z = 0) by omega)]
  by_cases hmax : 2 ^ 32 < b + z
  · rw [if_pos (Or.inr hmax), if_neg (show ¬ (b + (2 ^ 32 - b)) % 2 ^ 64 < 0x60000000 by omega),
      if_neg (show ¬ b + z < 0x60000000 by omega), if_neg (show ¬ b + z ≤ 2 ^ 32 by omega)]
    dsimp only
    rw [Nat.mod_eq_of_lt (show b < 2 ^ 32 by omega)]
    rfl
  rw [if_neg (show ¬ (b + z = 0 ∨ 2 ^ 32 < b + z) by omega)]
  by_cases hmin : b + z < 0x60000000
  · rw [if_pos (show (b + z) % 2 ^ 64 < 0x60000000 by omega), if_pos hmin]
    have hz' : sub64 z (sub64 0x60000000 b) % 2 ^ 32 = 2 ^ 32 - (0x60000000 - b - z) := by
      unfold sub64
      omega
    dsimp only
    rw [hz', Nat.mod_eq_of_lt (show 0x60000000 < 2 ^ 32 by decide)]
    unfold range capSize PHYS_ADDR_MAX
    congr 1
    omega
  · rw [if_neg (show ¬ (b + z) % 2 ^ 64 < 0x60000000 by omega), if_neg hmin,
      if_pos (show b + z ≤ 2 ^ 32 by omega)]
    dsimp only
    rw [Nat.mod_eq_of_lt (show b < 2 ^ 32 by omega)]
    rfl

theorem usablePages_eq {c : Config} (hc : c.MEMBLOCK_BASE = CONFIG_MEMBLOCK_BASE) (base size : ℕ) :
    usablePages c base size = Set.Ico (max ((base + 4095) / 4096 * 4096) 0x60000000)
      (min ((base + size) / 4096 * 4096) (2 ^ 32)) := by
  ext x
  unfold usablePages
  rw [Set.mem_ofPred_eq, Set.mem_Ico, hc, show CONFIG_MEMBLOCK_BASE = 0x60000000 from rfl,
    show MAX_MEMBLOCK_ADDR = 2 ^ 32 - 1 from rfl, show PAGE_SIZE = 4096 from rfl]
  constructor
  · rintro ⟨p, h1, h2, h3, h4, h5, h6⟩
    omega
  · intro h
    exact ⟨x / 4096, by omega, by omega, by omega, by omega, by omega, by omega⟩

theorem ico_eq_iff {a b c d : ℕ} :
    Set.Ico a b = Set.Ico c d ↔ (b ≤ a ∧ d ≤ c) ∨ (a = c ∧ b = d) := by
  by_cases h : a < b ∨ c < d
  · rw [Set.Ico_eq_Ico_iff h]
    omega
  · rw [Set.Ico_eq_empty (by omega), Set.Ico_eq_empty (by omega)]
    exact ⟨fun _ => Or.inl (by omega), fun _ => rfl⟩

end

/-! ### When it is right -/

/-- **The condition**: there is no whole page before the base is replaced; or the base is aligned and
the range lies above the upper limit, or between the limits and below the top page; or, with the base
one byte above a page, there is no whole page, or the rest is above the upper limit. -/
def Right (base size : ℕ) : Prop :=
  size < 4096 - base % 4096 ∨
    (base % 4096 = 0 ∧ (2 ^ 32 ≤ base ∨ (CONFIG_MEMBLOCK_BASE ≤ base ∧ base + size < 2 ^ 32))) ∨
    (base % 4096 = 1 ∧ (size < 8191 ∨ (2 ^ 32 + 4095 ≤ size ∧ 2 ^ 32 ≤ base + 4095)))

instance (base size : ℕ) : Decidable (Right base size) := by unfold Right; infer_instance

theorem added_eq_usablePages_iff {c : Config} (hc : c.MEMBLOCK_BASE = CONFIG_MEMBLOCK_BASE)
    {base size : ℕ} (hw : base + size < 2 ^ 64) :
    added c base size = usablePages c base size ↔ Right base size := by
  rw [usablePages_eq hc]
  unfold Right
  rw [show CONFIG_MEMBLOCK_BASE = 0x60000000 from rfl]
  by_cases hsmall : size < 4096 - base % 4096
  · have hnone : added c base size = ∅ := by
      unfold added clipped
      rw [if_pos (by rw [pageOffset_eq, show PAGE_SIZE = 4096 from rfl]; exact hsmall)]
    rw [hnone, Set.Ico_eq_empty (by omega)]
    exact ⟨fun _ => Or.inl hsmall, fun _ => rfl⟩
  have hpages := wholePages_eq hw (not_lt.mp hsmall)
  by_cases hr : base % 4096 = 0
  · rw [if_pos hr] at hpages
    rw [added_eq hc (not_lt.mp hsmall) hpages (by omega), ← Set.Ico_self 0]
    split_ifs
    · rw [ico_eq_iff]
      omega
    · rw [ico_eq_iff]
      omega
    · rw [ico_eq_iff]
      omega
    · rw [ico_eq_iff]
      omega
  · rw [if_neg hr] at hpages
    rw [added_eq hc (not_lt.mp hsmall) hpages (by omega), ← Set.Ico_self 0]
    split_ifs
    · rw [ico_eq_iff]
      omega
    · rw [ico_eq_iff]
      omega
    · rw [ico_eq_iff]
      omega
    · rw [ico_eq_iff]
      omega

/-- **`early_init_dt_add_memory_arch` adds exactly the usable whole pages** if and only if the condition
holds. -/
theorem addsUsable_iff (PAGE_OFFSET base size : ℕ) (hw : base + size < 2 ^ 64) :
    AddsUsable ⟨CONFIG_MEMBLOCK_BASE, PAGE_OFFSET⟩ base size ↔
      (size < 4096 - base % 4096 ∨
        (base % 4096 = 0 ∧ (2 ^ 32 ≤ base ∨ (CONFIG_MEMBLOCK_BASE ≤ base ∧ base + size < 2 ^ 32))) ∨
        (base % 4096 = 1 ∧ (size < 8191 ∨ (2 ^ 32 + 4095 ≤ size ∧ 2 ^ 32 ≤ base + 4095)))) :=
  addsUsable_iff_added.trans (added_eq_usablePages_iff rfl hw)

theorem addsUsable_iff_twoPages : AddsUsable ⟨CONFIG_MEMBLOCK_BASE, 0⟩ 0x60000000 0x2000 :=
  (addsUsable_iff 0 0x60000000 0x2000 (by decide)).mpr (by decide)

/-- A range that starts in the middle of a page: its base becomes an address in page 0. -/
theorem not_addsUsable_unaligned : ¬ AddsUsable ⟨CONFIG_MEMBLOCK_BASE, 0⟩ 0x60000800 0x2000 := by
  rw [addsUsable_iff_added, added_eq_usablePages_iff rfl (by decide)]
  decide

end HardStack.Memblock.EarlyInit
