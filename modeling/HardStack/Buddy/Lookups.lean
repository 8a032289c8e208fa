import HardStack.Buddy.Partition

/-! # The page structs that freeing reads

`__free_one_page` reads the struct of the buddy in every round of its loop and the struct of the buddy
one order up at its end; `pfn_valid_within` is always true. All of them lie in the block of the largest
order around the page, so that none lies outside of `mem_map` where the range consists of such blocks.
Elsewhere `memory_init` itself reads beyond an end: the block that it cuts off at an end which is not
aligned has its buddy on the other side. -/

namespace HardStack.Buddy.Lookups

open HardStack.Lib.Dyadic HardStack.Buddy.Model HardStack.Buddy.Invariant HardStack.Buddy.Partition

/-! ### The reads -/

/-- The buddies that the loop at `continue_merging` looks at. -/
def mergeLookups : ℕ → State → (pfn order : ℕ) → List ℕ
  | 0, _, _, _ => []
  | n + 1, s, pfn, order =>
    let buddyPfn := findBuddyPfn pfn order
    buddyPfn :: if pageIsBuddy s buddyPfn order then
        let s := ((s.listDel buddyPfn).decNrFree order).rmvPageOrder buddyPfn
        let combinedPfn := buddyPfn &&& pfn
        mergeLookups n s combinedPfn (order + 1)
      else []

/-- The `higher_buddy` that the code from `done_merging` on looks at. -/
def doneLookups (pfn order buddyPfn : ℕ) : List ℕ :=
  if order ≠ 0 ∧ order < MAX_ORDER - 2 then
    let combinedPfn := buddyPfn &&& pfn
    [findBuddyPfn combinedPfn (order + 1)]
  else []

/-- The page structs that `__free_one_page` reads as `buddy` or `higher_buddy`. -/
def freeLookups (s : State) (pfn order : ℕ) : List ℕ :=
  let maxOrder := min MAX_ORDER (pageblockOrder + 1)
  let r := continueMerging (maxOrder - 1 - order) s pfn order 0
  mergeLookups (maxOrder - 1 - order) s pfn order ++ doneLookups r.2.1 r.2.2.1 r.2.2.2

/-- The reads of the loop of `memory_init` that frees the range. -/
def rangeLookups (endPfn : ℕ) : ℕ → State → (startPfn : ℕ) → List ℕ
  | 0, _, _ => []
  | n + 1, s, startPfn =>
    if startPfn < endPfn then
      let order := shrinkOrder startPfn endPfn (min (MAX_ORDER - 1) (ffs startPfn))
      freeLookups s startPfn order ++
        rangeLookups endPfn n (freePages s startPfn order) (startPfn + (1 <<< order))
    else []

/-- The reads of `memory_init`. -/
def initLookups (c : Config) (raw : ℕ → Page) : List ℕ :=
  rangeLookups c.endPfn (c.endPfn - c.startPfn) (initPages c raw) c.startPfn

/-! ### The block around a page -/

theorem findBuddyPfn_div {pfn order : ℕ} (h : order < MAX_ORDER - 1) :
    findBuddyPfn pfn order / 2 ^ (MAX_ORDER - 1) = pfn / 2 ^ (MAX_ORDER - 1) := by
  unfold findBuddyPfn
  rw [Nat.xor_div_two_pow, Nat.one_shiftLeft, Nat.div_eq_of_lt (Nat.pow_lt_pow_right (by decide) h),
    Nat.xor_zero]

theorem and_div_of_eq {x y q : ℕ} (hx : x / 2 ^ (MAX_ORDER - 1) = q) (hy : y / 2 ^ (MAX_ORDER - 1) = q) :
    (x &&& y) / 2 ^ (MAX_ORDER - 1) = q := by
  rw [Nat.and_div_two_pow, hx, hy, Nat.and_self]

/-- The loop stays in the block of the largest order. -/
theorem mergeLookups_div : ∀ (n : ℕ) (s : State) (pfn order buddyPfn : ℕ), order + n = MAX_ORDER - 1 →
    (∀ q ∈ mergeLookups n s pfn order, q / 2 ^ (MAX_ORDER - 1) = pfn / 2 ^ (MAX_ORDER - 1)) ∧
    (continueMerging n s pfn order buddyPfn).2.1 / 2 ^ (MAX_ORDER - 1) = pfn / 2 ^ (MAX_ORDER - 1) ∧
    (n ≠ 0 → (continueMerging n s pfn order buddyPfn).2.2.2 / 2 ^ (MAX_ORDER - 1) =
      pfn / 2 ^ (MAX_ORDER - 1)) ∧
    (n = 0 → (continueMerging n s pfn order buddyPfn).2.2.1 = MAX_ORDER - 1)
  | 0, s, pfn, order, buddyPfn, h => by
    refine ⟨fun q hq => absurd hq List.not_mem_nil, rfl, fun hn => absurd rfl hn, fun _ => ?_⟩
    exact h
  | n + 1, s, pfn, order, buddyPfn, h => by
    have hbuddy := @findBuddyPfn_div pfn order (by omega)
    rw [mergeLookups, continueMerging]
    dsimp only
    by_cases hb : pageIsBuddy s (findBuddyPfn pfn order) order = true
    · have hcomb := and_div_of_eq hbuddy rfl
      obtain ⟨h1, h2, h3, h4⟩ := mergeLookups_div n
        (((s.listDel (findBuddyPfn pfn order)).decNrFree order).rmvPageOrder (findBuddyPfn pfn order))
        (findBuddyPfn pfn order &&& pfn) (order + 1) (findBuddyPfn pfn order) (by omega)
      rw [hcomb] at h1 h2 h3
      rw [if_pos hb, if_pos hb]
      refine ⟨fun q hq => ?_, h2, fun _ => ?_, fun h0 => by omega⟩
      · rcases List.mem_cons.mp hq with rfl | hq
        · exact hbuddy
        · exact h1 q hq
      · cases n with
        | zero => exact hbuddy
        | succ n => exact h3 (Nat.succ_ne_zero n)
    · rw [if_neg hb, if_neg hb]
      refine ⟨fun q hq => ?_, rfl, fun _ => hbuddy, fun h0 => by omega⟩
      rw [List.mem_singleton.mp hq]
      exact hbuddy

/-- **All reads lie in the block of the largest order** around the page. -/
theorem freeLookups_div {pfn order q : ℕ} (s : State) (ho : order < MAX_ORDER)
    (hq : q ∈ freeLookups s pfn order) : q / 2 ^ (MAX_ORDER - 1) = pfn / 2 ^ (MAX_ORDER - 1) := by
  have hmax : min MAX_ORDER (pageblockOrder + 1) = MAX_ORDER := rfl
  obtain ⟨h1, h2, h3, h4⟩ := mergeLookups_div (MAX_ORDER - 1 - order) s pfn order 0 (by omega)
  unfold freeLookups at hq
  rw [hmax] at hq
  rcases List.mem_append.mp hq with hq | hq
  · exact h1 q hq
  · unfold doneLookups at hq
    split_ifs at hq with hcond
    · have hn : MAX_ORDER - 1 - order ≠ 0 := by
        intro h0
        have := h4 h0
        omega
      rw [List.mem_singleton.mp hq, findBuddyPfn_div (by omega)]
      exact and_div_of_eq (h3 hn) h2
    · exact absurd hq List.not_mem_nil

/-- Where both ends are aligned, the block lies in the range. -/
theorem in_range_of_div {lo hi p q : ℕ} (hlo : 2 ^ (MAX_ORDER - 1) ∣ lo) (hhi : 2 ^ (MAX_ORDER - 1) ∣ hi)
    (h1 : lo ≤ p) (h2 : p < hi) (h : q / 2 ^ (MAX_ORDER - 1) = p / 2 ^ (MAX_ORDER - 1)) :
    lo ≤ q ∧ q < hi := by
  obtain ⟨a, rfl⟩ := hlo
  obtain ⟨b, rfl⟩ := hhi
  have hpow : 2 ^ (MAX_ORDER - 1) = 1024 := rfl
  simp only [hpow] at h1 h2 h ⊢
  omega

theorem rangeLookups_inside {lo E : ℕ} (hlo : 2 ^ (MAX_ORDER - 1) ∣ lo) (hE : 2 ^ (MAX_ORDER - 1) ∣ E) :
    ∀ (n : ℕ) (s : State) (a : ℕ), lo ≤ a → ∀ q ∈ rangeLookups E n s a, lo ≤ q ∧ q < E
  | 0, _, _, _, _, hq => absurd hq List.not_mem_nil
  | n + 1, s, a, ha, q, hq => by
    rw [rangeLookups] at hq
    split_ifs at hq with hlt
    · have ho := (shrinkOrder_spec hlt (min (MAX_ORDER - 1) (ffs a))).1
      rcases List.mem_append.mp hq with hq | hq
      · exact in_range_of_div hlo hE ha hlt (freeLookups_div s (by unfold MAX_ORDER at *; omega) hq)
      · exact rangeLookups_inside hlo hE n _ _ (ha.trans (Nat.le_add_right a _)) q hq
    · exact absurd hq List.not_mem_nil

/-! ### The blocks at the ends -/

/-- A round of the loop looks at the buddy first. -/
theorem buddy_mem_freeLookups {pfn order : ℕ} (s : State) (h : order < MAX_ORDER - 1) :
    findBuddyPfn pfn order ∈ freeLookups s pfn order := by
  have hmax : min MAX_ORDER (pageblockOrder + 1) = MAX_ORDER := rfl
  obtain ⟨n, hn⟩ : ∃ n, MAX_ORDER - 1 - order = n + 1 := ⟨MAX_ORDER - 1 - order - 1, by omega⟩
  unfold freeLookups
  rw [hmax]
  dsimp only
  rw [hn]
  refine List.mem_append_left _ ?_
  rw [mergeLookups]
  exact List.mem_cons_self

theorem lt_of_shrinkOrder {a e k : ℕ} (h : shrinkOrder a e k < k) :
    e < a + 2 ^ (shrinkOrder a e k + 1) := by
  by_contra hle
  have := le_shrinkOrder (not_lt.mp hle) (Nat.succ_le_of_lt h)
  omega

/-- **The last block**: what is left of an aligned block is cut off at the end, and the last piece has
the first page behind the end for its buddy. -/
theorem end_mem_rangeLookups {E : ℕ} : ∀ (n : ℕ) (s : State) (a m : ℕ), 0 < a → m ≤ MAX_ORDER - 1 →
    2 ^ m ∣ a → a < E → E < a + 2 ^ m → E - a ≤ n → E ∈ rangeLookups E n s a
  | 0, _, _, _, _, _, _, h1, _, hn => by omega
  | n + 1, s, a, m, ha, hm, hd, h1, h2, hn => by
    have hffs := le_ffs ha (show m < MAX_ORDER by unfold MAX_ORDER at *; omega) hd
    obtain ⟨-, hfit, -⟩ := shrinkOrder_spec h1 (min (MAX_ORDER - 1) (ffs a))
    have hmax := @lt_of_shrinkOrder a E (min (MAX_ORDER - 1) (ffs a))
    rw [rangeLookups, if_pos h1]
    dsimp only
    generalize shrinkOrder a E (min (MAX_ORDER - 1) (ffs a)) = o at hfit hmax
    have hom : o < m := by
      by_contra hle
      have := Nat.pow_le_pow_right (show 0 < 2 by decide) (not_lt.mp hle)
      omega
    have hpos : 0 < 2 ^ o := by positivity
    have hnext := hmax (by omega)
    rw [pow_succ] at hnext
    rcases Nat.eq_or_lt_of_le hfit with heq | hlt
    · have hbuddy : findBuddyPfn a o = E := by
        rcases buddy_cases ((pow_dvd_pow 2 hom.le).trans hd) with ⟨-, hb, -⟩ | ⟨hdvd, hle, -, -⟩
        · unfold findBuddyPfn
          rw [hb, heq]
        · -- the head is a multiple of twice the size
          have h2 : 2 ^ (o + 1) ∣ a := (pow_dvd_pow 2 hom).trans hd
          have h3 : 2 ^ (o + 1) ∣ 2 ^ o := by
            have := Nat.dvd_sub h2 hdvd
            rwa [Nat.sub_sub_self hle] at this
          have := Nat.le_of_dvd hpos h3
          rw [pow_succ] at this
          omega
      refine List.mem_append_left _ ?_
      have := @buddy_mem_freeLookups a o s (by omega)
      rwa [hbuddy] at this
    · refine List.mem_append_right _ ?_
      rw [Nat.one_shiftLeft]
      exact end_mem_rangeLookups n _ _ o (by omega) (by omega)
        (Nat.dvd_add ((pow_dvd_pow 2 hom.le).trans hd) dvd_rfl) hlt (by omega) (by omega)

/-- From an aligned page on, blocks of the largest order are cut off up to the last, partial one. -/
theorem end_mem_of_aligned {E : ℕ} (hE : ¬ 2 ^ (MAX_ORDER - 1) ∣ E) : ∀ (n : ℕ) (s : State) (a : ℕ), 0 < a →
    2 ^ (MAX_ORDER - 1) ∣ a → a < E → E - a ≤ n → E ∈ rangeLookups E n s a
  | 0, _, _, _, _, h1, hn => by omega
  | n + 1, s, a, ha, hd, h1, hn => by
    by_cases hfit : a + 2 ^ (MAX_ORDER - 1) ≤ E
    · have hffs := le_ffs ha (show MAX_ORDER - 1 < MAX_ORDER by decide) hd
      have ho : shrinkOrder a E (min (MAX_ORDER - 1) (ffs a)) = MAX_ORDER - 1 := by
        rw [min_eq_left hffs]
        exact le_antisymm (shrinkOrder_spec h1 _).1 (le_shrinkOrder hfit le_rfl)
      have hne : a + 2 ^ (MAX_ORDER - 1) ≠ E := by
        rintro rfl
        exact hE (Nat.dvd_add hd dvd_rfl)
      have hpow : 0 < 2 ^ (MAX_ORDER - 1) := by positivity
      rw [rangeLookups, if_pos h1, ho]
      refine List.mem_append_right _ ?_
      rw [Nat.one_shiftLeft]
      exact end_mem_of_aligned hE n _ _ (by omega) (Nat.dvd_add hd dvd_rfl) (by omega) (by omega)
    · exact end_mem_rangeLookups (n + 1) s a _ ha le_rfl hd h1 (by omega) hn

/-- **A start that is not aligned**: the first block has its buddy before the start, or is cut off at
the end. -/
theorem outside_of_start {a E : ℕ} (n : ℕ) (s : State) (ha : 0 < a)
    (hd : ¬ 2 ^ (MAX_ORDER - 1) ∣ a) (h1 : a < E) (hn : E - a ≤ n) :
    ∃ q ∈ rangeLookups E n s a, q < a ∨ q = E := by
  have hffs : ffs a < MAX_ORDER - 1 := by
    by_contra hge
    exact hd ((pow_dvd_pow 2 (not_lt.mp hge)).trans (ffs_dvd a))
  have hmin : min (MAX_ORDER - 1) (ffs a) = ffs a := min_eq_right hffs.le
  rcases Nat.eq_or_lt_of_le (shrinkOrder_spec h1 (ffs a)).1 with heq | hless
  · obtain ⟨n, rfl⟩ : ∃ n', n = n' + 1 := ⟨n - 1, by omega⟩
    refine ⟨findBuddyPfn a (ffs a), ?_, Or.inl ?_⟩
    · rw [rangeLookups, if_pos h1, hmin, heq]
      exact List.mem_append_left _ (buddy_mem_freeLookups s hffs)
    · rcases buddy_cases (ffs_dvd a) with ⟨hdvd, -, -⟩ | ⟨-, hle, hb, -⟩
      · have := le_ffs ha (show ffs a + 1 < MAX_ORDER by omega) hdvd
        omega
      · have hpos : 0 < 2 ^ ffs a := by positivity
        unfold findBuddyPfn
        rw [hb]
        omega
  · refine ⟨E, ?_, Or.inr rfl⟩
    exact end_mem_rangeLookups n s a _ ha (by omega) ((pow_dvd_pow 2 hless).trans (ffs_dvd a)) h1
      (lt_of_shrinkOrder hless) hn

/-! ### All runs -/

/-- Every read of `memory_init`, and of a call that frees a held block in a reachable state, is of a
struct of `mem_map`. -/
def LookupsInside (c : Config) (raw : ℕ → Page) : Prop :=
  (∀ q ∈ initLookups c raw, c.InMemMap q) ∧
  ∀ t, Reachable c raw t → ∀ b ∈ t.held, ∀ q ∈ freeLookups t.st b.head b.order, c.InMemMap q

theorem inMemMap_iff (c : Config) (q : ℕ) : c.InMemMap q ↔ c.startPfn ≤ q ∧ q < c.endPfn := by
  unfold Config.InMemMap
  rw [startPfn_eq, endPfn_eq]

theorem startPfn_pos (c : Config) : 0 < c.startPfn := by
  have h1 := c.offset_pos
  have h2 := Nat.le_of_dvd h1 c.offset_aligned
  rw [startPfn_eq]
  simp only [Config.PFN_OFFSET, PHYS_PFN, PAGE_SIZE, PAGE_SHIFT, Nat.shiftRight_eq_div_pow,
    Nat.one_shiftLeft] at h2 ⊢
  omega

theorem lookupsInside_of_aligned {c : Config} {raw : ℕ → Page} (hraw : Raw c raw)
    (hs : 2 ^ (MAX_ORDER - 1) ∣ c.startPfn) (he : 2 ^ (MAX_ORDER - 1) ∣ c.endPfn) :
    LookupsInside c raw := by
  refine ⟨fun q hq => ?_, fun t ht b hb q hq => ?_⟩
  · rw [inMemMap_iff]
    exact rangeLookups_inside hs he _ _ _ le_rfl q hq
  · have hinv := reachable_inv hraw ht
    have hmem : b ∈ freeBlocks t.st ++ (t.held ++ []) := by simp [hb]
    obtain ⟨h1, h2⟩ := hinv.range hmem b.covers_head
    rw [inMemMap_iff]
    exact in_range_of_div hs he h1 h2 (freeLookups_div t.st (hinv.shape b hmem).2 hq)

/-- **The reads stay inside `mem_map`** exactly if there is no page, or both ends of the range are
multiples of the largest block. -/
theorem lookupsInside_iff (c : Config) {raw : ℕ → Page} (hraw : Raw c raw) :
    LookupsInside c raw ↔
      c.nrPages = 0 ∨ 2 ^ (MAX_ORDER - 1) ∣ c.startPfn ∧ 2 ^ (MAX_ORDER - 1) ∣ c.endPfn := by
  have hs := startPfn_eq c
  have he := endPfn_eq c
  have hpos := startPfn_pos c
  constructor
  · rintro ⟨hinit, -⟩
    by_contra hno
    rw [not_or] at hno
    obtain ⟨hnr, hal⟩ := hno
    have hlt : c.startPfn < c.endPfn := by omega
    have hout : ∃ q ∈ initLookups c raw, q < c.startPfn ∨ q = c.endPfn := by
      by_cases hd : 2 ^ (MAX_ORDER - 1) ∣ c.startPfn
      · exact ⟨_, end_mem_of_aligned (fun hE => hal ⟨hd, hE⟩) _ _ _ hpos hd hlt le_rfl, Or.inr rfl⟩
      · exact outside_of_start _ _ hpos hd hlt le_rfl
    obtain ⟨q, hq, hq'⟩ := hout
    have := (inMemMap_iff c q).mp (hinit q hq)
    omega
  · rintro (h0 | ⟨h1, h2⟩)
    · refine ⟨fun q hq => ?_, fun t ht b hb q hq => ?_⟩
      · have hnil : initLookups c raw = [] := by
          unfold initLookups
          rw [show c.endPfn - c.startPfn = 0 by omega, rangeLookups]
        rw [hnil] at hq
        exact absurd hq List.not_mem_nil
      · have hrange := (reachable_inv hraw ht).range (b := b) (by simp [hb]) b.covers_head
        omega
    · exact lookupsInside_of_aligned hraw h1 h2

/-- Four MiB at `0x400000`. -/
def oneBlock : Config where
  PHYS_OFFSET := 0x400000
  MEMORY_SIZE := 0x400000
  offset_pos := by decide
  offset_aligned := by decide
  size_aligned := by decide
  no_overflow := by decide

theorem lookupsInside_iff_oneBlock : Raw oneBlock (fun _ => ⟨0, 0⟩) ∧
    (LookupsInside oneBlock (fun _ => ⟨0, 0⟩) ↔ oneBlock.nrPages = 0 ∨
      2 ^ (MAX_ORDER - 1) ∣ oneBlock.startPfn ∧ 2 ^ (MAX_ORDER - 1) ∣ oneBlock.endPfn) := by
  have hraw : Raw oneBlock fun _ => ⟨0, 0⟩ := ⟨fun _ _ => rfl, fun _ _ => by decide⟩
  exact ⟨hraw, lookupsInside_iff oneBlock hraw⟩

/-- Seven pages at `0x3000`: the first page that `memory_init` frees is page 3, and its buddy is
page 2. -/
theorem not_lookupsInside_sevenPages : Raw sevenPages (fun _ => ⟨0, 0⟩) ∧
    ¬ LookupsInside sevenPages (fun _ => ⟨0, 0⟩) := by
  refine ⟨⟨fun _ _ => rfl, fun _ _ => by decide⟩, fun h => ?_⟩
  have hmem : 2 ∈ initLookups sevenPages fun _ => ⟨0, 0⟩ := by decide +kernel
  exact absurd (h.1 2 hmem) (by decide)

end HardStack.Buddy.Lookups
