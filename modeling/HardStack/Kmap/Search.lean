import HardStack.Kmap.Mapping

/-! # The search for a slot ends where a slot can be reclaimed

The loop of `map_new_virtual` goes round the slots. Within one round it wraps, and the flush there
frees every slot whose page has no outstanding `kmap`; within another it comes to a free slot. With
all slots in use a round changes nothing but the position. -/

namespace HardStack.Kmap.Search

open HardStack.Kmap.Model HardStack.Kmap.Mapping

variable {c : Config} {s : State} {page : ℕ}

/-! ### One round -/

theorem getNextPkmapNr_next (h : s.lastPkmapNr + 1 < LAST_PKMAP) :
    (getNextPkmapNr s).lastPkmapNr = s.lastPkmapNr + 1 := by
  have hmask : LAST_PKMAP_MASK = 2 ^ 9 - 1 := by decide
  have hlast : LAST_PKMAP = 2 ^ 9 := by decide
  unfold getNextPkmapNr
  dsimp only
  rw [hmask, Nat.and_two_pow_sub_one_eq_mod]
  exact Nat.mod_eq_of_lt (by omega)

theorem getNextPkmapNr_wrap (h : s.lastPkmapNr + 1 = LAST_PKMAP) :
    (getNextPkmapNr s).lastPkmapNr = 0 := by
  unfold getNextPkmapNr
  dsimp only
  rw [h]
  decide

/-- The rest of a round, at a slot. -/
def atSlot (c : Config) (page n : ℕ) (s : State) (count : ℕ) : Option (State × ℕ) :=
  if s.pkmapCount s.lastPkmapNr = 0 then
    some (setPageAddress c { s with
      pkmapPageTable := Function.update s.pkmapPageTable s.lastPkmapNr (mkPte page kmapProt)
      pkmapCount := Function.update s.pkmapCount s.lastPkmapNr 1 } page (c.PKMAP_ADDR s.lastPkmapNr),
      c.PKMAP_ADDR s.lastPkmapNr)
  else if count - 1 ≠ 0 then mapNewVirtualLoop c page n s (count - 1)
  else if pageAddress c s page ≠ 0 then some (s, pageAddress c s page)
  else mapNewVirtualLoop c page n s LAST_PKMAP

theorem round_next (n count : ℕ) (h : s.lastPkmapNr + 1 < LAST_PKMAP) :
    mapNewVirtualLoop c page (n + 1) s count = atSlot c page n (getNextPkmapNr s) count := by
  have hmore : noMorePkmaps (getNextPkmapNr s).lastPkmapNr = false := by
    rw [getNextPkmapNr_next h]
    rfl
  rw [mapNewVirtualLoop]
  dsimp only
  rw [hmore]
  rfl

theorem round_wrap (n count : ℕ) (h : s.lastPkmapNr + 1 = LAST_PKMAP) :
    mapNewVirtualLoop c page (n + 1) s count =
      atSlot c page n (flushAllZeroPkmaps c (getNextPkmapNr s)) LAST_PKMAP := by
  have hmore : noMorePkmaps (getNextPkmapNr s).lastPkmapNr = true := by
    rw [getNextPkmapNr_wrap h]
    rfl
  unfold atSlot
  rw [mapNewVirtualLoop]
  dsimp only
  rw [hmore, if_pos rfl]

/-- A slot that is not free ends the search or leads to the next round. -/
theorem atSlot_some {n count : ℕ} (h : ∀ count, (mapNewVirtualLoop c page n s count).isSome) :
    (atSlot c page n s count).isSome := by
  unfold atSlot
  split_ifs
  · rfl
  · exact h _
  · rfl
  · exact h _

/-! ### The counters under a flush -/

theorem setPageAddress_frame (s : State) (page virt : ℕ) :
    (setPageAddress c s page virt).pkmapCount = s.pkmapCount ∧
      (setPageAddress c s page virt).lastPkmapNr = s.lastPkmapNr := by
  unfold setPageAddress
  dsimp only
  split
  · exact ⟨rfl, rfl⟩
  · split
    · exact ⟨rfl, rfl⟩
    · split <;> exact ⟨rfl, rfl⟩

theorem flushPkmap_count (s : State) (i : ℕ) :
    (flushPkmap c s i).pkmapCount =
        Function.update s.pkmapCount i (if s.pkmapCount i = 1 then 0 else s.pkmapCount i) ∧
      (flushPkmap c s i).lastPkmapNr = s.lastPkmapNr := by
  unfold flushPkmap
  by_cases h : s.pkmapCount i = 1
  · rw [if_neg (not_not.mpr h), if_pos h]
    exact setPageAddress_frame _ _ _
  · rw [if_pos h, if_neg h, Function.update_eq_self]
    exact ⟨rfl, rfl⟩

theorem foldl_flush_zero : ∀ (L : List ℕ) (s : State) (i : ℕ),
    (s.pkmapCount i = 0 ∨ (s.pkmapCount i = 1 ∧ i ∈ L)) →
    (L.foldl (flushPkmap c) s).pkmapCount i = 0
  | [], s, i, h => h.resolve_right fun h => absurd h.2 List.not_mem_nil
  | j :: L, s, i, h => by
    have hj := (@flushPkmap_count c s j).1
    refine foldl_flush_zero L _ i ?_
    rw [hj]
    by_cases hij : i = j
    · subst hij
      rw [Function.update_self]
      refine Or.inl ?_
      rcases h with h | ⟨h, -⟩
      · rw [h]
        rfl
      · rw [if_pos h]
    · rw [Function.update_of_ne hij]
      exact h.imp id fun h => ⟨h.1, (List.mem_cons.mp h.2).resolve_left hij⟩

theorem foldl_flush_last : ∀ (L : List ℕ) (s : State),
    (L.foldl (flushPkmap c) s).lastPkmapNr = s.lastPkmapNr
  | [], _ => rfl
  | j :: L, s => (foldl_flush_last L _).trans (flushPkmap_count s j).2

theorem foldl_flush_eq : ∀ (L : List ℕ) (s : State), (∀ i ∈ L, s.pkmapCount i ≠ 1) →
    L.foldl (flushPkmap c) s = s
  | [], _, _ => rfl
  | j :: L, s, h => by
    have hj : flushPkmap c s j = s := if_pos (h j List.mem_cons_self)
    rw [List.foldl_cons, hj]
    exact foldl_flush_eq L s fun i hi => h i (List.mem_cons_of_mem _ hi)

theorem flushAll_zero {i : ℕ} (hi : i < LAST_PKMAP) (h : s.pkmapCount i = 0 ∨ s.pkmapCount i = 1) :
    (flushAllZeroPkmaps c s).pkmapCount i = 0 := by
  unfold flushAllZeroPkmaps
  exact foldl_flush_zero _ s i (h.imp id fun h => ⟨h, List.mem_range.mpr hi⟩)

theorem flushAll_last : (flushAllZeroPkmaps c s).lastPkmapNr = s.lastPkmapNr := by
  unfold flushAllZeroPkmaps
  exact foldl_flush_last _ s

theorem flushAll_eq (h : ∀ i < LAST_PKMAP, s.pkmapCount i ≠ 1) : flushAllZeroPkmaps c s = s := by
  unfold flushAllZeroPkmaps
  exact foldl_flush_eq _ s fun i hi => h i (List.mem_range.mp hi)

/-! ### The search ends -/

/-- From before a free slot. -/
theorem search_free {j : ℕ} (hj : j < LAST_PKMAP) : ∀ (n : ℕ) (s : State) (count : ℕ),
    s.pkmapCount j = 0 → s.lastPkmapNr < j → j ≤ s.lastPkmapNr + n →
    (mapNewVirtualLoop c page n s count).isSome
  | 0, s, count, _, hlt, hle => by omega
  | n + 1, s, count, hfree, hlt, hle => by
    have hnext := @getNextPkmapNr_next s (by omega)
    rw [round_next n count (by omega)]
    by_cases hat : s.lastPkmapNr + 1 = j
    · unfold atSlot
      rw [if_pos (by rw [hnext, hat]; exact hfree)]
      rfl
    · refine atSlot_some fun count => search_free hj n (getNextPkmapNr s) count hfree ?_ ?_
      · rw [hnext]
        omega
      · rw [hnext]
        omega

/-- From anywhere, with a slot that is free or can be reclaimed. -/
theorem search_reclaimed {i : ℕ} (hi : i < LAST_PKMAP) : ∀ (n : ℕ) (s : State) (count : ℕ),
    s.pkmapCount i = 0 ∨ s.pkmapCount i = 1 → s.lastPkmapNr < LAST_PKMAP →
    2 * LAST_PKMAP ≤ s.lastPkmapNr + n → (mapNewVirtualLoop c page n s count).isSome
  | 0, s, count, _, hlt, hle => by omega
  | n + 1, s, count, hcount, hlt, hle => by
    rcases Nat.eq_or_lt_of_le (show s.lastPkmapNr + 1 ≤ LAST_PKMAP from hlt) with hwrap | hnowrap
    · -- the flush frees the slot
      have hfree : (flushAllZeroPkmaps c (getNextPkmapNr s)).pkmapCount i = 0 :=
        flushAll_zero hi hcount
      have hlast : (flushAllZeroPkmaps c (getNextPkmapNr s)).lastPkmapNr = 0 := by
        rw [flushAll_last, getNextPkmapNr_wrap hwrap]
      rw [round_wrap n count hwrap]
      rcases Nat.eq_zero_or_pos i with rfl | hpos
      · unfold atSlot
        rw [hlast, if_pos hfree]
        rfl
      · refine atSlot_some fun count => search_free hi n _ count hfree ?_ ?_
        · rw [hlast]
          exact hpos
        · rw [hlast]
          omega
    · have hnext := getNextPkmapNr_next hnowrap
      rw [round_next n count hnowrap]
      refine atSlot_some fun count => search_reclaimed hi n (getNextPkmapNr s) count hcount ?_ ?_
      · rw [hnext]
        exact hnowrap
      · rw [hnext]
        omega

/-- With every slot in use it does not end. -/
theorem search_full : ∀ (n : ℕ) (s : State) (count : ℕ),
    (∀ i < LAST_PKMAP, s.pkmapCount i ≠ 0 ∧ s.pkmapCount i ≠ 1) → s.lastPkmapNr < LAST_PKMAP →
    pageAddress c s page = 0 → mapNewVirtualLoop c page n s count = none
  | 0, _, _, _, _, _ => rfl
  | n + 1, s, count, huse, hlt, haddr => by
    have hlast : (getNextPkmapNr s).lastPkmapNr < LAST_PKMAP :=
      Nat.lt_of_le_of_lt Nat.and_le_right (by decide)
    have hflush : flushAllZeroPkmaps c (getNextPkmapNr s) = getNextPkmapNr s :=
      flushAll_eq fun i hi => (huse i hi).2
    have hat : ∀ count, atSlot c page n (getNextPkmapNr s) count = none := by
      intro count
      have hcount : (getNextPkmapNr s).pkmapCount (getNextPkmapNr s).lastPkmapNr ≠ 0 :=
        (huse _ hlast).1
      unfold atSlot
      rw [if_neg hcount]
      split_ifs with h1 h2
      · exact search_full n _ _ huse hlast haddr
      · exact absurd haddr h2
      · exact search_full n _ _ huse hlast haddr
    rcases Nat.eq_or_lt_of_le (show s.lastPkmapNr + 1 ≤ LAST_PKMAP from hlt) with hwrap | hnowrap
    · rw [round_wrap n count hwrap, hflush]
      exact hat _
    · rw [round_next n count hnowrap]
      exact hat _

/-! ### `kmap` -/

/-- `kmap` of a HighMem page ends: its only loop is the one of `map_new_virtual`, which it enters if
the page has no address. -/
def Ends (c : Config) (s : State) (page : ℕ) : Prop :=
  pageAddress c s page = 0 → ∃ n, (mapNewVirtual c n s page).isSome

/-- No other page in slot `i` has an outstanding `kmap`. -/
def Unshared (t : System) (i page : ℕ) : Prop :=
  ∀ page', SlotMaps t.st i page' → page' ≠ page → t.outstanding page' = 0

theorem ends_iff {owner : ℕ → Option ℕ} {o : ℕ → ℕ} (h : Inv c s owner o) (hp : c.HighPage page) :
    Ends c s page ↔ (∃ i, SlotMaps s i page) ∨
      ∃ i < LAST_PKMAP, s.pkmapCount i = 0 ∨ s.pkmapCount i = 1 := by
  rcases owner_or_none h hp.2 with ⟨i, hi, haddr⟩ | ⟨hno, haddr⟩
  · refine iff_of_true (fun h0 => absurd h0 ?_) (Or.inl ⟨i, (slotMaps_iff h).mpr hi⟩)
    rw [haddr]
    exact PKMAP_ADDR_ne_zero c i
  · constructor
    · intro hends
      obtain ⟨n, hn⟩ := hends haddr
      refine Or.inr ?_
      by_contra hfull
      push Not at hfull
      unfold mapNewVirtual at hn
      rw [search_full n s LAST_PKMAP hfull h.next haddr] at hn
      exact absurd hn (by decide)
    · rintro (⟨i, hi⟩ | ⟨i, hi, hcount⟩) _
      · exact absurd ((slotMaps_iff h).mp hi) (hno i)
      · exact ⟨2 * LAST_PKMAP, search_reclaimed hi _ s LAST_PKMAP hcount h.next (by omega)⟩

/-- What `kmap` returns is the address of a slot that no other page in use had. -/
theorem kmap_address {t : System} {owner : ℕ → Option ℕ} {n vaddr : ℕ} {s' : State}
    (h : Inv c t.st owner t.outstanding) (hp : c.HighPage page)
    (he : kmap c n t.st page = some (s', vaddr)) :
    ∃ i < LAST_PKMAP, vaddr = c.PKMAP_ADDR i ∧ Unshared t i page := by
  unfold kmap at he
  rw [hp.2, if_neg (by decide)] at he
  unfold kmapHigh at he
  dsimp only at he
  rcases owner_or_none h hp.2 with ⟨i, hi, haddr⟩ | ⟨hno, haddr⟩
  · rw [haddr, if_neg (PKMAP_ADDR_ne_zero c i), Option.map_eq_some_iff] at he
    obtain ⟨s₁, -, he⟩ := he
    cases he
    refine ⟨i, h.outside i page hi, rfl, fun page' hmaps hne => ?_⟩
    rw [slotMaps_iff h, hi] at hmaps
    cases hmaps
    exact absurd rfl hne
  · rw [if_pos haddr] at he
    cases hm : mapNewVirtual c n t.st page with
    | none =>
      rw [hm] at he
      cases he
    | some r =>
      obtain ⟨s₁, vaddr₁⟩ := r
      obtain ⟨owner', i, h', hmaps, hv⟩ :=
        mapNewVirtualLoop_inv hp.2 n t.st s₁ owner _ vaddr₁ h hno hm
      rw [hm] at he
      dsimp only at he
      rw [Option.map_eq_some_iff] at he
      obtain ⟨s₂, -, he⟩ := he
      cases he
      refine ⟨i, h'.outside i page hmaps.self, hv, fun page' hslot hne => ?_⟩
      by_contra hpos
      have := hmaps.keep i page' ((slotMaps_iff h).mp hslot) (by omega)
      rw [hmaps.self] at this
      cases this
      exact hne rfl

/-- `kmap` has a result, unless the counter of the page is at its end. -/
theorem kmap_some {owner : ℕ → Option ℕ} {o : ℕ → ℕ} (h : Inv c s owner o) (hp : c.HighPage page)
    (hends : Ends c s page) (hmax : ∀ i, SlotMaps s i page → s.pkmapCount i ≠ INT_MAX) :
    ∃ n, (kmap c n s page).isSome := by
  have hkmap : ∀ n, kmap c n s page = kmapHigh c n s page := fun n => if_neg (by rw [hp.2]; decide)
  simp only [hkmap]
  unfold kmapHigh
  dsimp only
  rcases owner_or_none h hp.2 with ⟨i, hi, haddr⟩ | ⟨hno, haddr⟩
  · refine ⟨0, ?_⟩
    rw [haddr, if_neg (PKMAP_ADDR_ne_zero c i), PKMAP_NR_ADDR]
    unfold incCount
    rw [if_neg (hmax i ((slotMaps_iff h).mpr hi))]
    rfl
  · obtain ⟨n, hn⟩ := hends haddr
    refine ⟨n, ?_⟩
    rw [if_pos haddr]
    obtain ⟨⟨s₁, vaddr⟩, hm⟩ := Option.isSome_iff_exists.mp hn
    obtain ⟨owner', i, h', hmaps, hv⟩ := mapNewVirtualLoop_inv hp.2 n s s₁ owner _ vaddr h hno hm
    have hidle : o page = 0 := by
      by_contra hpos
      obtain ⟨j, hj⟩ := h.idle page (by omega)
      exact hno j hj
    have hone : s₁.pkmapCount i = 1 := by
      rw [h'.count i page hmaps.self, hidle]
      rfl
    rw [hm]
    dsimp only
    rw [hv, PKMAP_NR_ADDR]
    unfold incCount
    rw [if_neg (by rw [hone]; decide)]
    rfl

/-- **`kmap` finds a slot whenever one can be reclaimed.** It ends exactly if the page is mapped or
some counter is `0` or `1`, and then returns the address of a slot that no other page in use has;
the counter of a page with `INT_MAX - 1` outstanding `kmap`s is the only obstacle. -/
theorem kmap_ends_iff {t : System} (h : Reachable c t) (hp : c.HighPage page) :
    (Ends c t.st page ↔ (∃ i, SlotMaps t.st i page) ∨
      ∃ i < LAST_PKMAP, t.st.pkmapCount i = 0 ∨ t.st.pkmapCount i = 1) ∧
    (Ends c t.st page → (∀ i, SlotMaps t.st i page → t.st.pkmapCount i ≠ INT_MAX) →
      ∃ n, (kmap c n t.st page).isSome) ∧
    ∀ n s' vaddr, kmap c n t.st page = some (s', vaddr) →
      ∃ i < LAST_PKMAP, vaddr = c.PKMAP_ADDR i ∧ Unshared t i page := by
  obtain ⟨owner, hinv⟩ := reachable_inv h
  exact ⟨ends_iff hinv hp, kmap_some hinv hp, fun n s' vaddr => kmap_address hinv hp⟩

/-- A second `kmap` of the first HighMem page. -/
theorem kmap_ends_iff_mappedOnce :
    Ends biscuitos mappedOnce.st 0x61000 ∧ ∃ n, (kmap biscuitos n mappedOnce.st 0x61000).isSome := by
  have hhigh : biscuitos.HighPage 0x61000 := ⟨by decide, by decide⟩
  have hst : Step biscuitos ⟨init, fun _ => 0⟩ mappedOnce :=
    @Step.kmap biscuitos init mappedOnce.st (fun _ => 0) 1 0x61000 (biscuitos.PKMAP_ADDR 1) hhigh rfl
  obtain ⟨h1, h2, -⟩ := kmap_ends_iff (Relation.ReflTransGen.single hst) hhigh
  have hends : Ends biscuitos mappedOnce.st 0x61000 := h1.mpr (Or.inr ⟨0, by decide, by decide⟩)
  obtain ⟨owner, hinv⟩ := reachable_inv (Relation.ReflTransGen.single hst)
  refine ⟨hends, h2 hends fun i hi hmax => ?_⟩
  have hcount := hinv.count i 0x61000 ((slotMaps_iff hinv).mp hi)
  rw [hmax] at hcount
  exact absurd hcount (by decide)

end HardStack.Kmap.Search
