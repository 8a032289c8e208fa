import HardStack.Lib.Dyadic
import HardStack.Memblock.Table

/-! # The search for a free range is sound

Every range that the two iterators yield lies in one memory region and between two reservations. The
search clamps it to its bounds and rounds inside it, so that an address it returns is aligned and
starts a free block of the size asked for. -/

namespace HardStack.Memblock.Find

open HardStack.Lib.Dyadic
open HardStack.Memblock.Model HardStack.Memblock.Regions HardStack.Memblock.Table

/-! ### Rounding -/

theorem roundMask_two_pow {k : ℕ} (hk : k ≤ 32) : roundMask (2 ^ k) = 2 ^ k - 1 := by
  have hle := Nat.pow_le_pow_right two_pos hk
  have hpos : 0 < 2 ^ k := by positivity
  unfold roundMask
  omega

theorem roundDown_dvd (x : ℕ) {k : ℕ} (hk : k ≤ 32) : 2 ^ k ∣ roundDown x (2 ^ k) := by
  refine two_pow_dvd_of_testBit fun i hi => ?_
  unfold roundDown
  rw [roundMask_two_pow hk, Nat.testBit_and, Nat.testBit_xor, Nat.testBit_two_pow_sub_one, Nat.testBit_two_pow_sub_one]
  simp only [hi, show i < 32 by omega, decide_true, Bool.xor_self, Bool.and_false]

theorem roundDown_le (x y : ℕ) : roundDown x y ≤ x := Nat.and_le_left

theorem or_add_one_dvd (y k : ℕ) : 2 ^ k ∣ (y ||| (2 ^ k - 1)) + 1 := by
  -- the low bits are all set, so that adding one carries over them
  have hmod : (y ||| (2 ^ k - 1)) % 2 ^ k = 2 ^ k - 1 := by
    refine Nat.eq_of_testBit_eq fun i => ?_
    rw [Nat.testBit_mod_two_pow, Nat.testBit_or, Nat.testBit_two_pow_sub_one]
    by_cases hi : i < k
    · simp [hi]
    · simp [hi]
  have hpos : 0 < 2 ^ k := by positivity
  refine Nat.dvd_of_mod_eq_zero ?_
  rw [Nat.add_mod, hmod]
  rcases Nat.eq_zero_or_pos k with rfl | hk
  · rfl
  · have : 1 < 2 ^ k := Nat.one_lt_two_pow (by omega)
    rw [Nat.mod_eq_of_lt this, Nat.sub_add_cancel hpos, Nat.mod_self]

theorem roundUp_dvd (x : ℕ) {k : ℕ} (hk : k ≤ 32) : 2 ^ k ∣ roundUp x (2 ^ k) := by
  unfold roundUp
  rw [roundMask_two_pow hk]
  exact (Nat.dvd_mod_iff (pow_dvd_pow 2 hk)).mpr (or_add_one_dvd _ k)

theorem le_roundUp {x : ℕ} (y : ℕ) (h1 : 0 < x) (h2 : x < 2 ^ 32) (hne : roundUp x y ≠ 0) :
    x ≤ roundUp x y := by
  unfold roundUp at *
  have hx : (x + (2 ^ 32 - 1)) % 2 ^ 32 = x - 1 := by omega
  rw [hx] at hne ⊢
  have hlt : x - 1 ||| roundMask y < 2 ^ 32 :=
    Nat.or_lt_two_pow (by omega) (Nat.mod_lt _ (by decide))
  have hle : x - 1 ≤ x - 1 ||| roundMask y := Nat.left_le_or
  rcases Nat.lt_or_ge ((x - 1 ||| roundMask y) + 1) (2 ^ 32) with hw | hw
  · rw [Nat.mod_eq_of_lt hw]
    omega
  · have hfull : (x - 1 ||| roundMask y) + 1 = 2 ^ 32 := by omega
    rw [hfull, Nat.mod_self] at hne
    exact absurd rfl hne

/-! ### Gaps -/

variable {typeA typeB : MemblockType}

/-- A block of one memory region that meets no reservation. -/
structure FreeRange (typeA typeB : MemblockType) (lo hi : ℕ) : Prop where
  inside : ∃ m ∈ typeA.regions, m.base ≤ lo ∧ hi ≤ m.fin
  apart : ∀ r ∈ typeB.regions, r.fin ≤ lo ∨ hi ≤ r.base

theorem region_eq {i : ℕ} (h : i < typeB.cnt) : typeB.region i = typeB.regions.get ⟨i, h⟩ := by
  unfold MemblockType.region
  rw [List.getD_eq_getElem?_getD, List.getElem?_eq_getElem h]
  rfl

/-- The area before reservation `b` meets none of them. -/
theorem gap_apart (h : Apart 0 typeB.regions) {b : ℕ} (hb : b ≤ typeB.cnt) :
    ∀ r ∈ typeB.regions, r.fin ≤ typeB.gapStart b ∨ typeB.gapEnd b ≤ r.base := by
  intro r hr
  obtain ⟨⟨j, hj⟩, rfl⟩ := List.get_of_mem hr
  have hpair := List.pairwise_iff_get.mp h
  rcases Nat.lt_or_ge j b with hlt | hge
  · left
    unfold MemblockType.gapStart
    rw [if_neg (by omega), region_eq (show b - 1 < typeB.cnt by omega)]
    rcases Nat.lt_or_ge j (b - 1) with hlt' | hge'
    · have := hpair ⟨j, hj⟩ ⟨b - 1, show b - 1 < typeB.cnt by omega⟩ hlt'
      unfold Region.fin at this ⊢
      omega
    · obtain rfl : j = b - 1 := by omega
      exact le_rfl
  · right
    have hbc : b < typeB.cnt := lt_of_le_of_lt hge hj
    unfold MemblockType.gapEnd
    rw [if_pos hbc, region_eq hbc]
    rcases Nat.lt_or_ge b j with hlt' | hge'
    · have := hpair ⟨b, hbc⟩ ⟨j, hj⟩ hlt'
      unfold Region.fin at this
      omega
    · obtain rfl : j = b := by omega
      exact le_rfl

/-- A region that is not empty is one of the array. -/
theorem region_mem {i : ℕ} (h : 0 < (typeA.region i).fin) : typeA.region i ∈ typeA.regions := by
  rcases Nat.lt_or_ge i typeA.cnt with hi | hi
  · rw [region_eq hi]
    exact List.get_mem ..
  · have hdef : typeA.region i = ⟨0, 0, 0⟩ := by
      unfold MemblockType.region
      rw [List.getD_eq_getElem?_getD, List.getElem?_eq_none hi]
      rfl
    rw [hdef] at h
    exact absurd h (by decide)

theorem freeRange_of_gap (h : Apart 0 typeB.regions) {a b : ℕ} (hb : b ≤ typeB.cnt)
    (hfin : typeB.gapStart b < (typeA.region a).fin) :
    FreeRange typeA typeB (max (typeA.region a).base (typeB.gapStart b))
      (min (typeA.region a).fin (typeB.gapEnd b)) := by
  refine ⟨⟨typeA.region a, region_mem (by omega), by omega, by omega⟩, fun r hr => ?_⟩
  rcases gap_apart h hb r hr with hr' | hr'
  · left
    omega
  · right
    omega

/-! ### The iterators -/

theorem nextAreaB_spec (m : Region) : ∀ (n idxB : ℕ) {b : ℕ}, nextAreaB m typeB n idxB = (b, true) →
    b < idxB + n ∧ typeB.gapStart b < m.fin
  | 0, idxB, b, he => by cases he
  | n + 1, idxB, b, he => by
    unfold nextAreaB at he
    split_ifs at he with h1 h2
    · cases he
    · cases he
      exact ⟨by omega, by omega⟩
    · obtain ⟨hb, hg⟩ := nextAreaB_spec m n (idxB + 1) he
      exact ⟨by omega, hg⟩

theorem nextMemRangeLoop_sound (h : Apart 0 typeB.regions) : ∀ (n idxA idxB : ℕ) {i lo hi : ℕ},
    nextMemRangeLoop typeA typeB n idxA idxB = (i, lo, hi) → i ≠ ULLONG_MAX →
    FreeRange typeA typeB lo hi
  | 0, idxA, idxB, i, lo, hi, he, hne => by
    cases he
    exact absurd rfl hne
  | n + 1, idxA, idxB, i, lo, hi, he, hne => by
    unfold nextMemRangeLoop at he
    dsimp only at he
    cases hB : nextAreaB (typeA.region idxA) typeB (typeB.cnt + 1 - idxB) idxB with
    | mk b found =>
      rw [hB] at he
      cases found with
      | false => exact nextMemRangeLoop_sound h n (idxA + 1) b he hne
      | true =>
        obtain ⟨hlt, hgap⟩ := nextAreaB_spec _ _ _ hB
        rw [if_pos rfl] at he
        cases he
        refine freeRange_of_gap h ?_ hgap
        by_contra hgt
        -- the loop has no rounds beyond the last area
        have hz : typeB.cnt + 1 - idxB = 0 := by omega
        rw [hz] at hB
        cases hB

theorem nextMemRange_sound (h : Apart 0 typeB.regions) {idx i lo hi : ℕ}
    (he : nextMemRange typeA typeB idx = (i, lo, hi)) (hne : i ≠ ULLONG_MAX) :
    FreeRange typeA typeB lo hi :=
  nextMemRangeLoop_sound h _ _ _ he hne

theorem nextAreaRevB_spec (m : Region) : ∀ (nb : ℕ) {b : ℕ} {found : Bool},
    nextAreaRevB m typeB nb = (b, found) →
    b ≤ nb ∧ (found = true → 0 < b ∧ typeB.gapStart (b - 1) < m.fin)
  | 0, b, found, he => by
    cases he
    exact ⟨le_rfl, fun hf => by cases hf⟩
  | idxB + 1, b, found, he => by
    unfold nextAreaRevB at he
    split_ifs at he with h1 h2
    · cases he
      exact ⟨le_rfl, fun hf => by cases hf⟩
    · cases he
      exact ⟨le_rfl, fun _ => ⟨by omega, by rw [Nat.add_sub_cancel]; exact h2⟩⟩
    · obtain ⟨hb, hf⟩ := nextAreaRevB_spec m idxB he
      exact ⟨by omega, hf⟩

theorem unpackB_packIdx_le (a : ℤ) {b : ℤ} (hb : -1 ≤ b) : unpackB (packIdx a b) ≤ b := by
  have ha : (a % 2 ^ 32).toNat < 2 ^ 32 := by omega
  have hbn : (b % 2 ^ 32).toNat < 2 ^ 32 := by omega
  have hdiv : packIdx a b / 2 ^ 32 % 2 ^ 32 = (b % 2 ^ 32).toNat := by
    unfold packIdx
    rw [Nat.add_mul_div_right _ _ (by norm_num), Nat.div_eq_of_lt ha, Nat.zero_add,
      Nat.mod_eq_of_lt hbn]
  unfold unpackB toInt
  rw [hdiv]
  split_ifs with hlt
  · omega
  · omega

theorem nextMemRangeRevLoop_sound (h : Apart 0 typeB.regions) : ∀ (na nb : ℕ) {i lo hi : ℕ},
    nb ≤ typeB.cnt + 1 → nextMemRangeRevLoop typeA typeB na nb = (i, lo, hi) → i ≠ ULLONG_MAX →
    FreeRange typeA typeB lo hi ∧ unpackB i ≤ typeB.cnt
  | 0, nb, i, lo, hi, _, he, hne => by
    cases he
    exact absurd rfl hne
  | idxA + 1, nb, i, lo, hi, hnb, he, hne => by
    unfold nextMemRangeRevLoop at he
    dsimp only at he
    cases hB : nextAreaRevB (typeA.region idxA) typeB nb with
    | mk b found =>
      rw [hB] at he
      obtain ⟨hle, hfound⟩ := nextAreaRevB_spec _ _ hB
      cases found with
      | false => exact nextMemRangeRevLoop_sound h idxA b (by omega) he hne
      | true =>
        obtain ⟨hpos, hgap⟩ := hfound rfl
        rw [if_pos rfl] at he
        cases he
        refine ⟨freeRange_of_gap h (by omega) hgap, ?_⟩
        dsimp only
        split_ifs
        · have := unpackB_packIdx_le ((idxA : ℤ) - 1) (b := ((b - 1 : ℕ) : ℤ)) (by omega)
          omega
        · have := unpackB_packIdx_le (idxA : ℤ) (b := ((b - 1 : ℕ) : ℤ) - 1) (by omega)
          omega

theorem nextMemRangeRev_sound (h : Apart 0 typeB.regions) {idx i lo hi : ℕ}
    (hidx : idx = ULLONG_MAX ∨ unpackB idx ≤ typeB.cnt)
    (he : nextMemRangeRev typeA typeB idx = (i, lo, hi)) (hne : i ≠ ULLONG_MAX) :
    FreeRange typeA typeB lo hi ∧ unpackB i ≤ typeB.cnt := by
  unfold nextMemRangeRev at he
  split_ifs at he with hmax
  · exact nextMemRangeRevLoop_sound h _ _ le_rfl he hne
  · have := hidx.resolve_left hmax
    exact nextMemRangeRevLoop_sound h _ _ (by omega) he hne

/-! ### The search -/

variable {s : State} {start fin size align a k : ℕ}

/-- A block inside the bounds that is free. -/
structure Inside (s : State) (start fin size a : ℕ) : Prop where
  start_le : start ≤ a
  fin_le : a + size ≤ fin
  free : FreeRange s.memory s.reserved a (a + size)

/-- What a result of the search is: an aligned block inside the bounds that is free. -/
structure Found (s : State) (start fin size align a : ℕ) : Prop where
  aligned : align ∣ a
  start_le : start ≤ a
  fin_le : a + size ≤ fin
  free : FreeRange s.memory s.reserved a (a + size)

/-- The result of rounding down, or of rounding up, to `align`. -/
def Rounded (align a : ℕ) : Prop := ∃ x, a = roundDown x align ∨ a = roundUp x align

theorem Rounded.dvd (h : Rounded (2 ^ k) a) (hk : k ≤ 32) : 2 ^ k ∣ a := by
  obtain ⟨x, rfl | rfl⟩ := h
  · exact roundDown_dvd x hk
  · exact roundUp_dvd x hk

theorem FreeRange.mono {lo hi lo' hi' : ℕ} (h : FreeRange typeA typeB lo hi) (h1 : lo ≤ lo')
    (h2 : hi' ≤ hi) : FreeRange typeA typeB lo' hi' := by
  obtain ⟨⟨m, hm, hlo, hhi⟩, hap⟩ := h
  refine ⟨⟨m, hm, by omega, by omega⟩, fun r hr => ?_⟩
  have := hap r hr
  omega

/-- A block inside a clamped range is inside the range and inside the bounds. -/
theorem inside_clamp {lo hi : ℕ} (hsf : start ≤ fin) (hsize : 0 < size)
    (h1 : clamp lo start fin ≤ a) (h2 : a + size ≤ clamp hi start fin) :
    lo ≤ a ∧ a + size ≤ hi ∧ start ≤ a ∧ a + size ≤ fin := by
  unfold clamp at h1 h2
  omega

theorem findRangeTopDownLoop_inside (h : Apart 0 s.reserved.regions) (hsf : start ≤ fin)
    (hsize : 0 < size) : ∀ (n i lo hi : ℕ),
    (i ≠ ULLONG_MAX → FreeRange s.memory s.reserved lo hi ∧ unpackB i ≤ s.reserved.cnt) →
    findRangeTopDownLoop s start fin size align n (i, lo, hi) = a → a ≠ 0 →
    Inside s start fin size a ∧ Rounded align a
  | 0, i, lo, hi, _, he, ha => by
    unfold findRangeTopDownLoop at he
    exact absurd he.symm ha
  | n + 1, i, lo, hi, hi', he, ha => by
    unfold findRangeTopDownLoop at he
    by_cases hmax : i = ULLONG_MAX
    · rw [if_pos hmax] at he
      exact absurd he.symm ha
    rw [if_neg hmax] at he
    obtain ⟨hfree, hunpack⟩ := hi' hmax
    have hnext : findRangeTopDownLoop s start fin size align n
        (nextMemRangeRev s.memory s.reserved i) = a →
        Inside s start fin size a ∧ Rounded align a := by
      intro he'
      cases hr : nextMemRangeRev s.memory s.reserved i with
      | mk i' r =>
        obtain ⟨lo', hi''⟩ := r
        rw [hr] at he'
        exact findRangeTopDownLoop_inside h hsf hsize n i' lo' hi''
          (fun hne => nextMemRangeRev_sound h (Or.inr hunpack) hr hne) he' ha
    dsimp only at he
    by_cases hsmall : clamp hi start fin < size
    · rw [if_pos hsmall] at he
      exact hnext he
    rw [if_neg hsmall] at he
    by_cases hcand : roundDown (clamp hi start fin - size) align ≥ clamp lo start fin
    · rw [if_pos hcand] at he
      subst he
      have hle := roundDown_le (clamp hi start fin - size) align
      obtain ⟨h1, h2, h3, h4⟩ := inside_clamp hsf hsize hcand
        (show roundDown (clamp hi start fin - size) align + size ≤ clamp hi start fin by omega)
      exact ⟨⟨h3, h4, hfree.mono h1 h2⟩, _, Or.inl rfl⟩
    · rw [if_neg hcand] at he
      exact hnext he

theorem findRangeTopDown_inside (h : Apart 0 s.reserved.regions) (hsf : start ≤ fin)
    (hsize : 0 < size) (he : findRangeTopDown s start fin size align = a) (ha : a ≠ 0) :
    Inside s start fin size a ∧ Rounded align a := by
  unfold findRangeTopDown at he
  cases hr : nextMemRangeRev s.memory s.reserved ULLONG_MAX with
  | mk i r =>
    obtain ⟨lo, hi⟩ := r
    rw [hr] at he
    exact findRangeTopDownLoop_inside h hsf hsize _ i lo hi
      (fun hne => nextMemRangeRev_sound h (Or.inl rfl) hr hne) he ha

theorem findRangeBottomUpLoop_inside (h : Apart 0 s.reserved.regions) (hsf : start ≤ fin)
    (hfin : fin ≤ PHYS_ADDR_MAX) (hsize : 0 < size) (hstart : 0 < start) :
    ∀ (n i lo hi : ℕ), (i ≠ ULLONG_MAX → FreeRange s.memory s.reserved lo hi) →
    findRangeBottomUpLoop s start fin size align n (i, lo, hi) = a → a ≠ 0 →
    Inside s start fin size a ∧ Rounded align a
  | 0, i, lo, hi, _, he, ha => by
    unfold findRangeBottomUpLoop at he
    exact absurd he.symm ha
  | n + 1, i, lo, hi, hi', he, ha => by
    unfold findRangeBottomUpLoop at he
    by_cases hmax : i = ULLONG_MAX
    · rw [if_pos hmax] at he
      exact absurd he.symm ha
    rw [if_neg hmax] at he
    dsimp only at he
    have hx : 0 < clamp lo start fin ∧ clamp lo start fin < 2 ^ 32 := by
      unfold clamp
      unfold PHYS_ADDR_MAX at hfin
      omega
    by_cases hcand : roundUp (clamp lo start fin) align < clamp hi start fin ∧
        clamp hi start fin - roundUp (clamp lo start fin) align ≥ size
    · rw [if_pos hcand] at he
      subst he
      have hle := le_roundUp align hx.1 hx.2 ha
      obtain ⟨h1, h2, h3, h4⟩ := inside_clamp hsf hsize hle
        (show roundUp (clamp lo start fin) align + size ≤ clamp hi start fin by omega)
      exact ⟨⟨h3, h4, (hi' hmax).mono h1 h2⟩, _, Or.inr rfl⟩
    · rw [if_neg hcand] at he
      cases hr : nextMemRange s.memory s.reserved i with
      | mk i' r =>
        obtain ⟨lo', hi''⟩ := r
        rw [hr] at he
        exact findRangeBottomUpLoop_inside h hsf hfin hsize hstart n i' lo' hi''
          (fun hne => nextMemRange_sound h hr hne) he ha

theorem findRangeBottomUp_inside (h : Apart 0 s.reserved.regions) (hsf : start ≤ fin)
    (hfin : fin ≤ PHYS_ADDR_MAX) (hsize : 0 < size) (hstart : 0 < start)
    (he : findRangeBottomUp s start fin size align = a) (ha : a ≠ 0) :
    Inside s start fin size a ∧ Rounded align a := by
  unfold findRangeBottomUp at he
  cases hr : nextMemRange s.memory s.reserved 0 with
  | mk i r =>
    obtain ⟨lo, hi⟩ := r
    rw [hr] at he
    exact findRangeBottomUpLoop_inside h hsf hfin hsize hstart _ i lo hi
      (fun hne => nextMemRange_sound h hr hne) he ha

/-- The end of the search after `pump up @end`. -/
def effectiveEnd (s : State) (fin : ℕ) : ℕ :=
  if fin = MEMBLOCK_ALLOC_ACCESSIBLE ∨ fin = MEMBLOCK_ALLOC_KASAN then s.currentLimit else fin

/-- Whatever the alignment, a search that finds something finds a free block. -/
theorem findInRangeNode_inside {c : Config} (h : Apart 0 s.reserved.regions)
    (hlimit : s.currentLimit ≤ PHYS_ADDR_MAX) (hstart : start ≤ PHYS_ADDR_MAX)
    (hfin : fin ≤ PHYS_ADDR_MAX) (hsize : 0 < size)
    (he : findInRangeNode c s size align start fin = a) (ha : a ≠ 0) :
    Inside s (max start PAGE_SIZE) (effectiveEnd s fin) size a ∧ Rounded align a := by
  have hpage : 0 < PAGE_SIZE := by decide
  have hpage' : PAGE_SIZE ≤ PHYS_ADDR_MAX := by decide
  have heff : effectiveEnd s fin ≤ PHYS_ADDR_MAX := by
    unfold effectiveEnd
    split_ifs
    · exact hlimit
    · exact hfin
  -- inside the raised end a block lies only if the end was not raised
  have hdown : ∀ {lo}, max start PAGE_SIZE ≤ lo →
      Inside s lo (max (max start PAGE_SIZE) (effectiveEnd s fin)) size a ∧ Rounded align a →
      Inside s (max start PAGE_SIZE) (effectiveEnd s fin) size a ∧ Rounded align a := by
    rintro lo hlo ⟨⟨h2, h3, h4⟩, hr⟩
    exact ⟨⟨by omega, by omega, h4⟩, hr⟩
  unfold findInRangeNode at he
  dsimp only at he
  rw [← effectiveEnd] at he
  by_cases hup : s.bottomUp = true ∧ max (max start PAGE_SIZE) (effectiveEnd s fin) > c.MEMBLOCK_BASE
  · rw [if_pos hup] at he
    by_cases hret : findRangeBottomUp s (max (max start PAGE_SIZE) c.MEMBLOCK_BASE)
        (max (max start PAGE_SIZE) (effectiveEnd s fin)) size align ≠ 0
    · rw [if_pos hret] at he
      exact hdown (by omega) (findRangeBottomUp_inside h (by omega) (by omega) hsize (by omega) he ha)
    · rw [if_neg hret] at he
      exact hdown le_rfl (findRangeTopDown_inside h (by omega) hsize he ha)
  · rw [if_neg hup, if_neg (by simp)] at he
    exact hdown le_rfl (findRangeTopDown_inside h (by omega) hsize he ha)

/-- **`memblock_find_in_range_node` is sound.** -/
theorem findInRangeNode_sound {c : Config} (h : Apart 0 s.reserved.regions)
    (hlimit : s.currentLimit ≤ PHYS_ADDR_MAX) (hstart : start ≤ PHYS_ADDR_MAX)
    (hfin : fin ≤ PHYS_ADDR_MAX) (hsize : 0 < size) (hk : k < 32)
    (he : findInRangeNode c s size (2 ^ k) start fin = a) (ha : a ≠ 0) :
    Found s (max start PAGE_SIZE) (effectiveEnd s fin) size (2 ^ k) a := by
  obtain ⟨⟨h1, h2, h3⟩, hr⟩ := findInRangeNode_inside h hlimit hstart hfin hsize he ha
  exact ⟨hr.dvd hk.le, h1, h2, h3⟩

end HardStack.Memblock.Find
