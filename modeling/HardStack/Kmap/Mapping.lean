import HardStack.Kmap.Model
import HardStack.Buddy.MemMap

/-! # The pkmap slots, their pages and the hash lists stay in step

The abstract content of the area is a partial injection `owner` from slots to HighMem pages. Counters,
page table entries, address maps and hash lists are all read off it (`Inv`): a flush forgets owners of
pages without an outstanding `kmap`, a new mapping adds one, and `kmap` and `kunmap` only move a
counter. -/

namespace HardStack.Kmap.Mapping

open HardStack.Kmap.Model
open HardStack.Buddy.Model (PAGE_SHIFT)

variable {c : Config} {s : State} {owner : ℕ → Option ℕ} {o : ℕ → ℕ}

/-! ### Macros -/

theorem PKMAP_NR_ADDR (c : Config) (i : ℕ) : c.PKMAP_NR (c.PKMAP_ADDR i) = i := by
  unfold Config.PKMAP_NR Config.PKMAP_ADDR
  rw [Nat.add_sub_cancel_left, Nat.shiftLeft_shiftRight]

theorem PKMAP_ADDR_ne_zero (c : Config) (i : ℕ) : c.PKMAP_ADDR i ≠ 0 := by
  have h := c.offset_room
  have hpmd : PMD_SIZE = 2 ^ 21 := by decide
  have hbase : 0 < c.PKMAP_BASE := by
    unfold Config.PKMAP_BASE
    omega
  exact (Nat.add_pos_left hbase _).ne'

theorem ptePage_mkPte (page : ℕ) : ptePage (mkPte page kmapProt) = page := by
  have hprot : kmapProt >>> PAGE_SHIFT = 0 := by decide
  unfold ptePage ptePfn mkPte
  rw [Nat.shiftRight_or_distrib, Nat.shiftLeft_shiftRight, hprot, Nat.or_zero]

theorem mkPte_ne_zero (page : ℕ) : mkPte page kmapProt ≠ 0 := by
  intro h
  unfold mkPte at h
  exact absurd (Nat.or_eq_zero_iff.mp h).2 (by decide)

/-! ### The invariant -/

/-- **The invariant**: slot `i` is mapped to the page `owner i`. -/
structure Inv (c : Config) (s : State) (owner : ℕ → Option ℕ) (o : ℕ → ℕ) : Prop where
  outside : ∀ i page, owner i = some page → i < LAST_PKMAP
  free : ∀ i < LAST_PKMAP, owner i = none → s.pkmapCount i = 0 ∧ s.pkmapPageTable i = 0
  high : ∀ i page, owner i = some page → c.PageHighMem page = true
  count : ∀ i page, owner i = some page → s.pkmapCount i = 1 + o page
  pte : ∀ i page, owner i = some page → s.pkmapPageTable i = mkPte page kmapProt
  maps : ∀ i page, owner i = some page → s.pageAddressMaps i = ⟨page, c.PKMAP_ADDR i⟩
  inj : ∀ i j page, owner i = some page → owner j = some page → i = j
  bucket : ∀ b i, i ∈ s.pageAddressHtable b ↔ ∃ page, owner i = some page ∧ c.pageSlot page = b
  nodup : ∀ b, (s.pageAddressHtable b).Nodup
  idle : ∀ page, 0 < o page → ∃ i, owner i = some page
  next : s.lastPkmapNr < LAST_PKMAP

theorem findMap_owner {i page : ℕ} (h : Inv c s owner o) (hi : owner i = some page) :
    findMap s page (s.pageAddressHtable (c.pageSlot page)) = some i := by
  have hmem := (h.bucket (c.pageSlot page) i).mpr ⟨page, hi, rfl⟩
  unfold findMap
  cases hf : (s.pageAddressHtable (c.pageSlot page)).find?
      fun i => (s.pageAddressMaps i).page == page with
  | none =>
    have := List.find?_eq_none.mp hf i hmem
    rw [h.maps i page hi] at this
    simp at this
  | some j =>
    obtain ⟨page', hj, -⟩ := (h.bucket _ j).mp (List.mem_of_find?_eq_some hf)
    have hpage := List.find?_some hf
    rw [h.maps j page' hj] at hpage
    obtain rfl : page' = page := by simpa using hpage
    rw [h.inj j i page' hj hi]

theorem findMap_none {page : ℕ} (h : Inv c s owner o) (hno : ∀ i, owner i ≠ some page) :
    findMap s page (s.pageAddressHtable (c.pageSlot page)) = none := by
  refine List.find?_eq_none.mpr fun j hj hpage => ?_
  obtain ⟨page', hj', -⟩ := (h.bucket _ j).mp hj
  rw [h.maps j page' hj'] at hpage
  obtain rfl : page' = page := by simpa using hpage
  exact hno j hj'

/-- **`page_address`** of a mapped page is the address of its slot. -/
theorem pageAddress_owner {i page : ℕ} (h : Inv c s owner o) (hi : owner i = some page) :
    pageAddress c s page = c.PKMAP_ADDR i := by
  unfold pageAddress
  rw [h.high i page hi, findMap_owner h hi]
  exact congrArg PageAddressMap.virt (h.maps i page hi)

theorem pageAddress_none {page : ℕ} (h : Inv c s owner o) (hp : c.PageHighMem page = true)
    (hno : ∀ i, owner i ≠ some page) : pageAddress c s page = 0 := by
  unfold pageAddress
  rw [hp, findMap_none h hno]
  rfl

/-- A page has an owner exactly if `page_address` is not `NULL`. -/
theorem owner_or_none (h : Inv c s owner o) {page : ℕ} (hp : c.PageHighMem page = true) :
    (∃ i, owner i = some page ∧ pageAddress c s page = c.PKMAP_ADDR i) ∨
      ((∀ i, owner i ≠ some page) ∧ pageAddress c s page = 0) := by
  by_cases hex : ∃ i, owner i = some page
  · obtain ⟨i, hi⟩ := hex
    exact Or.inl ⟨i, hi, pageAddress_owner h hi⟩
  · have hno : ∀ i, owner i ≠ some page := fun i hi => hex ⟨i, hi⟩
    exact Or.inr ⟨hno, pageAddress_none h hp hno⟩

/-- A mapped slot has a positive counter. -/
theorem owner_of_count {i : ℕ} (h : Inv c s owner o) (hi : i < LAST_PKMAP)
    (hc : s.pkmapCount i ≠ 0) : ∃ page, owner i = some page := by
  cases ho : owner i with
  | none => exact absurd (h.free i hi ho).1 hc
  | some page => exact ⟨page, rfl⟩

theorem count_ne_zero {i page : ℕ} (h : Inv c s owner o) (hi : owner i = some page) :
    s.pkmapCount i ≠ 0 := by
  rw [h.count i page hi]
  omega

/-! ### `flush_all_zero_pkmaps` -/

/-- Owners are only forgotten, and only of pages without an outstanding `kmap`. -/
structure Shrinks (owner owner' : ℕ → Option ℕ) (o : ℕ → ℕ) : Prop where
  sub : ∀ i page, owner' i = some page → owner i = some page
  keep : ∀ i page, owner i = some page → 0 < o page → owner' i = some page

theorem Shrinks.refl : Shrinks owner owner o := ⟨fun _ _ h => h, fun _ _ h _ => h⟩

theorem Shrinks.trans {owner' owner'' : ℕ → Option ℕ} (h1 : Shrinks owner owner' o)
    (h2 : Shrinks owner' owner'' o) : Shrinks owner owner'' o :=
  ⟨fun i page h => h1.sub i page (h2.sub i page h),
    fun i page h hpos => h2.keep i page (h1.keep i page h hpos) hpos⟩

theorem flushPkmap_inv {i : ℕ} (h : Inv c s owner o) (hi : i < LAST_PKMAP) :
    ∃ owner', Inv c (flushPkmap c s i) owner' o ∧ Shrinks owner owner' o := by
  unfold flushPkmap
  by_cases hc : s.pkmapCount i ≠ 1
  · rw [if_pos hc]
    exact ⟨owner, h, Shrinks.refl⟩
  rw [if_neg hc]
  rw [not_not] at hc
  obtain ⟨page, hown⟩ := owner_of_count h hi (by rw [hc]; decide)
  have hidle : o page = 0 := by
    have := h.count i page hown
    omega
  have hset : ∀ j page', Function.update owner i none j = some page' →
      j ≠ i ∧ owner j = some page' := by
    intro j page' hj
    by_cases hji : j = i
    · subst hji
      rw [Function.update_self] at hj
      cases hj
    · rw [Function.update_of_ne hji] at hj
      exact ⟨hji, hj⟩
  have hpage : ptePage (s.pkmapPageTable i) = page := by rw [h.pte i page hown, ptePage_mkPte]
  have hfind := findMap_owner h hown
  refine ⟨Function.update owner i none, ?_, ⟨fun j page' hj => (hset j page' hj).2,
    fun j page' hj hpos => ?_⟩⟩
  · unfold setPageAddress
    dsimp only
    rw [hpage, h.high i page hown]
    unfold findMap at hfind ⊢
    dsimp only
    rw [hfind, if_neg (by decide), if_neg (by decide)]
    constructor
    · intro j page' hj
      exact h.outside j page' (hset j page' hj).2
    · intro j hj hnone
      by_cases hji : j = i
      · subst hji
        exact ⟨Function.update_self .., Function.update_self ..⟩
      · rw [Function.update_of_ne hji] at hnone
        simp only [Function.update_of_ne hji]
        exact h.free j hj hnone
    · intro j page' hj
      exact h.high j page' (hset j page' hj).2
    · intro j page' hj
      obtain ⟨hji, hj⟩ := hset j page' hj
      exact (Function.update_of_ne hji _ _).trans (h.count j page' hj)
    · intro j page' hj
      obtain ⟨hji, hj⟩ := hset j page' hj
      exact (Function.update_of_ne hji _ _).trans (h.pte j page' hj)
    · intro j page' hj
      exact h.maps j page' (hset j page' hj).2
    · intro j k page' hj hk
      exact h.inj j k page' (hset j page' hj).2 (hset k page' hk).2
    · intro b j
      -- only the list of the page changes, and it loses slot `i`
      have hlist : j ∈ Function.update s.pageAddressHtable (c.pageSlot page)
          ((s.pageAddressHtable (c.pageSlot page)).erase i) b ↔
          j ≠ i ∧ j ∈ s.pageAddressHtable b := by
        by_cases hb : b = c.pageSlot page
        · subst hb
          rw [Function.update_self, (h.nodup _).mem_erase_iff]
        · rw [Function.update_of_ne hb]
          refine ⟨fun hj => ⟨?_, hj⟩, fun hj => hj.2⟩
          rintro rfl
          obtain ⟨page', hj', hb'⟩ := (h.bucket b j).mp hj
          rw [hown] at hj'
          cases hj'
          exact hb hb'.symm
      refine hlist.trans ?_
      rw [h.bucket b j]
      constructor
      · rintro ⟨hji, page', hj, hb⟩
        exact ⟨page', (Function.update_of_ne hji _ _).trans hj, hb⟩
      · rintro ⟨page', hj, hb⟩
        obtain ⟨hji, hj⟩ := hset j page' hj
        exact ⟨hji, page', hj, hb⟩
    · intro b
      by_cases hb : b = c.pageSlot page
      · subst hb
        simp only [Function.update_self]
        exact (h.nodup _).erase i
      · simp only [Function.update_of_ne hb]
        exact h.nodup b
    · intro page' hpos
      obtain ⟨j, hj⟩ := h.idle page' hpos
      refine ⟨j, (Function.update_of_ne ?_ _ _).trans hj⟩
      rintro rfl
      rw [hown] at hj
      cases hj
      omega
    · exact h.next
  · refine (Function.update_of_ne ?_ _ _).trans hj
    rintro rfl
    rw [hown] at hj
    cases hj
    omega

theorem foldl_flush_inv : ∀ (L : List ℕ) (s : State) (owner : ℕ → Option ℕ),
    (∀ i ∈ L, i < LAST_PKMAP) → Inv c s owner o →
    ∃ owner', Inv c (L.foldl (flushPkmap c) s) owner' o ∧ Shrinks owner owner' o
  | [], s, owner, _, h => ⟨owner, h, Shrinks.refl⟩
  | i :: L, s, owner, hL, h => by
    obtain ⟨owner₁, h₁, hs₁⟩ := flushPkmap_inv h (hL i List.mem_cons_self)
    obtain ⟨owner₂, h₂, hs₂⟩ := foldl_flush_inv L _ owner₁
      (fun j hj => hL j (List.mem_cons_of_mem _ hj)) h₁
    exact ⟨owner₂, h₂, hs₁.trans hs₂⟩

theorem flushAllZeroPkmaps_inv (h : Inv c s owner o) :
    ∃ owner', Inv c (flushAllZeroPkmaps c s) owner' o ∧ Shrinks owner owner' o :=
  foldl_flush_inv _ s owner (fun _ hi => List.mem_range.mp hi) h

/-! ### `map_new_virtual` -/

/-- The mapping of a free slot. -/
theorem map_inv {nr page : ℕ} (h : Inv c s owner o) (hp : c.PageHighMem page = true)
    (hno : ∀ i, owner i ≠ some page) (hnr : nr < LAST_PKMAP) (hc : s.pkmapCount nr = 0) :
    Inv c (setPageAddress c { s with
        pkmapPageTable := Function.update s.pkmapPageTable nr (mkPte page kmapProt)
        pkmapCount := Function.update s.pkmapCount nr 1 } page (c.PKMAP_ADDR nr))
      (Function.update owner nr (some page)) o := by
  have hfree : owner nr = none := by
    cases ho : owner nr with
    | none => rfl
    | some page' => exact absurd hc (count_ne_zero h ho)
  have hidle : o page = 0 := by
    by_contra hpos
    obtain ⟨i, hi⟩ := h.idle page (by omega)
    exact hno i hi
  have hset : ∀ j page', Function.update owner nr (some page) j = some page' →
      (j = nr ∧ page' = page) ∨ (j ≠ nr ∧ owner j = some page') := by
    intro j page' hj
    by_cases hji : j = nr
    · subst hji
      rw [Function.update_self] at hj
      cases hj
      exact Or.inl ⟨rfl, rfl⟩
    · rw [Function.update_of_ne hji] at hj
      exact Or.inr ⟨hji, hj⟩
  unfold setPageAddress
  rw [hp, if_neg (by decide)]
  dsimp only
  rw [if_pos (PKMAP_ADDR_ne_zero c nr), PKMAP_NR_ADDR]
  constructor
  · intro j page' hj
    rcases hset j page' hj with ⟨rfl, -⟩ | ⟨-, hj⟩
    · exact hnr
    · exact h.outside j page' hj
  · intro j hj hnone
    by_cases hji : j = nr
    · subst hji
      rw [Function.update_self] at hnone
      cases hnone
    · rw [Function.update_of_ne hji] at hnone
      simp only [Function.update_of_ne hji]
      exact h.free j hj hnone
  · intro j page' hj
    rcases hset j page' hj with ⟨-, rfl⟩ | ⟨-, hj⟩
    · exact hp
    · exact h.high j page' hj
  · intro j page' hj
    rcases hset j page' hj with ⟨rfl, rfl⟩ | ⟨hji, hj⟩
    · simp only [Function.update_self, hidle]
      rfl
    · exact (Function.update_of_ne hji _ _).trans (h.count j page' hj)
  · intro j page' hj
    rcases hset j page' hj with ⟨rfl, rfl⟩ | ⟨hji, hj⟩
    · exact Function.update_self ..
    · exact (Function.update_of_ne hji _ _).trans (h.pte j page' hj)
  · intro j page' hj
    rcases hset j page' hj with ⟨rfl, rfl⟩ | ⟨hji, hj⟩
    · exact Function.update_self ..
    · exact (Function.update_of_ne hji _ _).trans (h.maps j page' hj)
  · intro j k page' hj hk
    rcases hset j page' hj with ⟨rfl, rfl⟩ | ⟨-, hj'⟩
    · rcases hset k page' hk with ⟨rfl, -⟩ | ⟨-, hk'⟩
      · rfl
      · exact absurd hk' (hno k)
    · rcases hset k page' hk with ⟨-, rfl⟩ | ⟨-, hk'⟩
      · exact absurd hj' (hno j)
      · exact h.inj j k page' hj' hk'
  · intro b j
    -- only the list of the page changes, and it gains the slot
    have hlist : j ∈ Function.update s.pageAddressHtable (c.pageSlot page)
        (s.pageAddressHtable (c.pageSlot page) ++ [nr]) b ↔
        j ∈ s.pageAddressHtable b ∨ (j = nr ∧ c.pageSlot page = b) := by
      by_cases hb : b = c.pageSlot page
      · subst hb
        rw [Function.update_self, List.mem_append, List.mem_singleton]
        tauto
      · rw [Function.update_of_ne hb]
        refine ⟨Or.inl, fun hj => hj.resolve_right fun hj' => hb hj'.2.symm⟩
    refine hlist.trans ?_
    rw [h.bucket b j]
    constructor
    · rintro (⟨page', hj, hb⟩ | ⟨rfl, hb⟩)
      · have hji : j ≠ nr := by
          rintro rfl
          rw [hfree] at hj
          cases hj
        exact ⟨page', (Function.update_of_ne hji _ _).trans hj, hb⟩
      · exact ⟨page, Function.update_self .., hb⟩
    · rintro ⟨page', hj, hb⟩
      rcases hset j page' hj with ⟨rfl, rfl⟩ | ⟨-, hj⟩
      · exact Or.inr ⟨rfl, hb⟩
      · exact Or.inl ⟨page', hj, hb⟩
  · intro b
    by_cases hb : b = c.pageSlot page
    · subst hb
      simp only [Function.update_self]
      refine List.nodup_append.mpr ⟨h.nodup _, List.nodup_singleton nr, fun x hx y hy hxy => ?_⟩
      obtain rfl : y = nr := List.mem_singleton.mp hy
      subst hxy
      obtain ⟨page', hj, -⟩ := (h.bucket _ x).mp hx
      rw [hfree] at hj
      cases hj
    · simp only [Function.update_of_ne hb]
      exact h.nodup b
  · intro page' hpos
    obtain ⟨j, hj⟩ := h.idle page' hpos
    refine ⟨j, (Function.update_of_ne ?_ _ _).trans hj⟩
    rintro rfl
    rw [hfree] at hj
    cases hj
  · exact h.next

theorem getNextPkmapNr_inv (h : Inv c s owner o) : Inv c (getNextPkmapNr s) owner o := by
  have hlt : (s.lastPkmapNr + 1) &&& LAST_PKMAP_MASK < LAST_PKMAP :=
    Nat.lt_of_le_of_lt Nat.and_le_right (by decide)
  exact { h with next := hlt }

/-- What a new mapping does to the owners: it keeps those of pages in use and adds its own. -/
structure Maps (owner owner' : ℕ → Option ℕ) (o : ℕ → ℕ) (i page : ℕ) : Prop where
  self : owner' i = some page
  keep : ∀ j page', owner j = some page' → 0 < o page' → owner' j = some page'

/-- **`map_new_virtual`**, where it returns, has mapped the page to one slot. -/
theorem mapNewVirtualLoop_inv {page : ℕ} (hp : c.PageHighMem page = true) : ∀ (n : ℕ) (s s' : State)
    (owner : ℕ → Option ℕ) (count vaddr : ℕ), Inv c s owner o → (∀ i, owner i ≠ some page) →
    mapNewVirtualLoop c page n s count = some (s', vaddr) →
    ∃ owner' i, Inv c s' owner' o ∧ Maps owner owner' o i page ∧ vaddr = c.PKMAP_ADDR i
  | 0, _, _, _, _, _, _, _, he => by cases he
  | n + 1, s, s', owner, count, vaddr, h, hno, he => by
    -- the state and the counter after a possible flush
    obtain ⟨s₁, count₁, owner₁, hs₁, h₁, hsh⟩ : ∃ s₁ count₁ owner₁,
        (if noMorePkmaps (getNextPkmapNr s).lastPkmapNr then
          (flushAllZeroPkmaps c (getNextPkmapNr s), LAST_PKMAP) else (getNextPkmapNr s, count)) =
          (s₁, count₁) ∧ Inv c s₁ owner₁ o ∧ Shrinks owner owner₁ o := by
      by_cases hz : noMorePkmaps (getNextPkmapNr s).lastPkmapNr = true
      · rw [if_pos hz]
        obtain ⟨owner₁, h₁, hsh⟩ := flushAllZeroPkmaps_inv (getNextPkmapNr_inv h)
        exact ⟨_, _, owner₁, rfl, h₁, hsh⟩
      · rw [if_neg hz]
        exact ⟨_, _, owner, rfl, getNextPkmapNr_inv h, Shrinks.refl⟩
    have hno₁ : ∀ i, owner₁ i ≠ some page := fun i hi => hno i (hsh.sub i page hi)
    have hrec : ∀ count', mapNewVirtualLoop c page n s₁ count' = some (s', vaddr) →
        ∃ owner' i, Inv c s' owner' o ∧ Maps owner owner' o i page ∧ vaddr = c.PKMAP_ADDR i := by
      intro count' he'
      obtain ⟨owner', i, h', hm, hv⟩ := mapNewVirtualLoop_inv hp n s₁ s' owner₁ count' vaddr h₁ hno₁ he'
      exact ⟨owner', i, h', ⟨hm.self, fun j page' hj hpos =>
        hm.keep j page' (hsh.keep j page' hj hpos) hpos⟩, hv⟩
    rw [mapNewVirtualLoop] at he
    dsimp only at he
    rw [hs₁] at he
    dsimp only at he
    split_ifs at he with hc hcount haddr
    · cases he
      have hfree : owner₁ s₁.lastPkmapNr = none := by
        cases ho : owner₁ s₁.lastPkmapNr with
        | none => rfl
        | some page' => exact absurd hc (count_ne_zero h₁ ho)
      refine ⟨_, s₁.lastPkmapNr, map_inv h₁ hp hno₁ h₁.next hc, ⟨Function.update_self ..,
        fun j page' hj hpos => ?_⟩, rfl⟩
      have hj₁ := hsh.keep j page' hj hpos
      refine (Function.update_of_ne ?_ _ _).trans hj₁
      rintro rfl
      rw [hfree] at hj₁
      cases hj₁
    · exact hrec _ he
    · exact absurd (pageAddress_none h₁ hp hno₁) haddr
    · exact hrec _ he

/-! ### `kmap` and `kunmap` -/

/-- Moving the counter of a slot along with the outstanding `kmap`s of its page. -/
theorem setCount_inv {i page n : ℕ} (h : Inv c s owner o) (hi : owner i = some page) {k : ℤ}
    (hk : k = 1 + n) :
    Inv c { s with pkmapCount := Function.update s.pkmapCount i k } owner
      (Function.update o page n) := by
  refine { h with free := fun j hj hnone => ?_, count := fun j page' hj => ?_, idle := fun page' hpos => ?_ }
  · have hji : j ≠ i := by
      rintro rfl
      rw [hi] at hnone
      cases hnone
    exact ⟨(Function.update_of_ne hji _ _).trans (h.free j hj hnone).1, (h.free j hj hnone).2⟩
  · by_cases hji : j = i
    · subst hji
      rw [hi] at hj
      cases hj
      simp only [Function.update_self]
      exact hk
    · have hpp : page' ≠ page := by
        rintro rfl
        exact hji (h.inj j i page' hj hi)
      simp only [Function.update_of_ne hji, Function.update_of_ne hpp]
      exact h.count j page' hj
  · by_cases hpp : page' = page
    · exact ⟨i, hpp ▸ hi⟩
    · rw [Function.update_of_ne hpp] at hpos
      exact h.idle page' hpos

theorem incCount_inv {i page : ℕ} {s' : State} (h : Inv c s owner o) (hi : owner i = some page)
    (he : incCount s i = some s') : Inv c s' owner (Function.update o page (o page + 1)) := by
  unfold incCount at he
  split_ifs at he
  cases he
  refine setCount_inv h hi ?_
  rw [h.count i page hi]
  push_cast
  ring

/-- The owners of pages in use stay. -/
def Keeps (owner owner' : ℕ → Option ℕ) (o : ℕ → ℕ) : Prop :=
  ∀ i page, owner i = some page → 0 < o page → owner' i = some page

theorem kmap_inv {n page vaddr : ℕ} {s' : State} (h : Inv c s owner o) (hp : c.HighPage page)
    (he : kmap c n s page = some (s', vaddr)) :
    ∃ owner', Inv c s' owner' (Function.update o page (o page + 1)) ∧ Keeps owner owner' o := by
  unfold kmap at he
  rw [hp.2, if_neg (by decide)] at he
  unfold kmapHigh at he
  dsimp only at he
  rcases owner_or_none h hp.2 with ⟨i, hi, haddr⟩ | ⟨hno, haddr⟩
  · rw [haddr, if_neg (PKMAP_ADDR_ne_zero c i), PKMAP_NR_ADDR, Option.map_eq_some_iff] at he
    obtain ⟨s₁, hs₁, he⟩ := he
    cases he
    exact ⟨owner, incCount_inv h hi hs₁, fun _ _ hj _ => hj⟩
  · rw [if_pos haddr] at he
    cases hm : mapNewVirtual c n s page with
    | none =>
      rw [hm] at he
      cases he
    | some r =>
      obtain ⟨s₁, vaddr₁⟩ := r
      rw [hm] at he
      obtain ⟨owner', i, h', hmaps, hv⟩ :=
        mapNewVirtualLoop_inv hp.2 n s s₁ owner _ vaddr₁ h hno hm
      dsimp only at he
      rw [hv, PKMAP_NR_ADDR, Option.map_eq_some_iff] at he
      obtain ⟨s₂, hs₂, he⟩ := he
      cases he
      exact ⟨owner', incCount_inv h' hmaps.self hs₂, hmaps.keep⟩

theorem kunmap_inv {page : ℕ} (h : Inv c s owner o) (hp : c.HighPage page) (hpos : 0 < o page) :
    Inv c (kunmap c s page) owner (Function.update o page (o page - 1)) := by
  obtain ⟨i, hi⟩ := h.idle page hpos
  unfold kunmap
  rw [hp.2, if_neg (by decide)]
  unfold kunmapHigh
  dsimp only
  rw [pageAddress_owner h hi, if_neg (PKMAP_ADDR_ne_zero c i), PKMAP_NR_ADDR]
  refine setCount_inv h hi ?_
  rw [h.count i page hi]
  omega

/-! ### Runs -/

theorem init_inv (c : Config) : Inv c init (fun _ => none) fun _ => 0 where
  outside := fun _ _ hi => (by cases hi)
  free := fun _ _ _ => ⟨rfl, rfl⟩
  high := fun _ _ hi => (by cases hi)
  count := fun _ _ hi => (by cases hi)
  pte := fun _ _ hi => (by cases hi)
  maps := fun _ _ hi => (by cases hi)
  inj := fun _ _ _ hi => (by cases hi)
  bucket := fun _ _ => ⟨fun hi => (by cases hi), fun hi => (by obtain ⟨_, hi, -⟩ := hi; cases hi)⟩
  nodup := fun _ => List.nodup_nil
  idle := fun _ hpos => absurd hpos (lt_irrefl 0)
  next := by decide

theorem step_inv {t t' : System} (h : Inv c t.st owner t.outstanding) (hst : Step c t t') :
    ∃ owner', Inv c t'.st owner' t'.outstanding ∧ Keeps owner owner' t.outstanding := by
  cases hst with
  | kmap hp he => exact kmap_inv h hp he
  | kunmap hp hpos => exact ⟨owner, kunmap_inv h hp hpos, fun _ _ hj _ => hj⟩

theorem reachable_inv {t : System} (h : Reachable c t) :
    ∃ owner, Inv c t.st owner t.outstanding := by
  refine Lib.Run.invariant (I := fun t => ∃ owner, Inv c t.st owner t.outstanding)
    ⟨_, init_inv c⟩ (fun a b ha hst => ?_) h
  obtain ⟨owner, ha⟩ := ha
  obtain ⟨owner', hb, -⟩ := step_inv ha hst
  exact ⟨owner', hb⟩

/-- Slot `i` maps the page. -/
def SlotMaps (s : State) (i page : ℕ) : Prop :=
  i < LAST_PKMAP ∧ 1 ≤ s.pkmapCount i ∧ s.pkmapPageTable i = mkPte page kmapProt

theorem slotMaps_iff {i page : ℕ} (h : Inv c s owner o) :
    SlotMaps s i page ↔ owner i = some page := by
  constructor
  · rintro ⟨hi, hc, hpte⟩
    obtain ⟨page', ho⟩ := owner_of_count h hi (by omega)
    have heq := h.pte i page' ho
    rw [hpte] at heq
    have := congrArg ptePage heq
    rw [ptePage_mkPte, ptePage_mkPte] at this
    rw [ho, this]
  · intro ho
    have hc := h.count i page ho
    exact ⟨h.outside i page ho, by omega, h.pte i page ho⟩

/-- What holds of the kmap area between calls. -/
structure Consistent (c : Config) (t : System) : Prop where
  unused : ∀ i < LAST_PKMAP, t.st.pkmapCount i = 0 ↔
    t.st.pkmapPageTable i = 0 ∧ ∀ b, i ∉ t.st.pageAddressHtable b
  used : ∀ i < LAST_PKMAP, t.st.pkmapCount i ≠ 0 →
    ∃! page, SlotMaps t.st i page ∧ t.st.pkmapCount i = 1 + t.outstanding page
  distinct : ∀ i j page, SlotMaps t.st i page → SlotMaps t.st j page → i = j
  address : ∀ page, c.HighPage page → ∀ i, i < LAST_PKMAP →
    (pageAddress c t.st page = c.PKMAP_ADDR i ↔ SlotMaps t.st i page)
  unmapped : ∀ page, c.HighPage page →
    (pageAddress c t.st page = 0 ↔ ∀ i, ¬ SlotMaps t.st i page)

theorem PKMAP_ADDR_inj {i j : ℕ} (h : c.PKMAP_ADDR i = c.PKMAP_ADDR j) : i = j := by
  rw [← PKMAP_NR_ADDR c i, h, PKMAP_NR_ADDR]

theorem Inv.consistent {t : System} (h : Inv c t.st owner t.outstanding) : Consistent c t := by
  refine ⟨fun i hi => ⟨fun hc => ?_, fun hc => ?_⟩, fun i hi hc => ?_, fun i j page hi hj => ?_,
    fun page hp i hi => ?_, fun page hp => ?_⟩
  · cases ho : owner i with
    | some page => exact absurd hc (count_ne_zero h ho)
    | none =>
      refine ⟨(h.free i hi ho).2, fun b hb => ?_⟩
      obtain ⟨page, hpage, -⟩ := (h.bucket b i).mp hb
      rw [ho] at hpage
      cases hpage
  · cases ho : owner i with
    | some page => exact absurd (h.pte i page ho ▸ hc.1) (mkPte_ne_zero page)
    | none => exact (h.free i hi ho).1
  · obtain ⟨page, ho⟩ := owner_of_count h hi hc
    refine ⟨page, ⟨(slotMaps_iff h).mpr ho, h.count i page ho⟩, fun page' hpage' => ?_⟩
    have := (slotMaps_iff h).mp hpage'.1
    rw [ho] at this
    cases this
    rfl
  · exact h.inj i j page ((slotMaps_iff h).mp hi) ((slotMaps_iff h).mp hj)
  · rw [slotMaps_iff h]
    constructor
    · intro haddr
      rcases owner_or_none h hp.2 with ⟨j, hj, haddr'⟩ | ⟨-, haddr'⟩
      · rw [haddr] at haddr'
        rw [PKMAP_ADDR_inj haddr']
        exact hj
      · rw [haddr] at haddr'
        exact absurd haddr' (PKMAP_ADDR_ne_zero c i)
    · exact pageAddress_owner h
  · constructor
    · intro haddr i hi
      rw [slotMaps_iff h] at hi
      rw [pageAddress_owner h hi] at haddr
      exact PKMAP_ADDR_ne_zero c i haddr
    · intro hno
      exact pageAddress_none h hp.2 fun i hi => hno i ((slotMaps_iff h).mpr hi)

/-- A step that starts while the page has an outstanding `kmap`. -/
def StepInUse (c : Config) (page : ℕ) (t t' : System) : Prop := Step c t t' ∧ 0 < t.outstanding page

/-- While a page is in use its slot stays its own. -/
theorem run_keeps {t t' : System} {page i : ℕ} (h : ∃ owner, Inv c t.st owner t.outstanding ∧
    owner i = some page) (hr : Relation.ReflTransGen (StepInUse c page) t t') :
    ∃ owner, Inv c t'.st owner t'.outstanding ∧ owner i = some page := by
  refine Lib.Run.invariant (I := fun t => ∃ owner, Inv c t.st owner t.outstanding ∧
    owner i = some page) h (fun a b ha hst => ?_) hr
  obtain ⟨owner, hinv, ho⟩ := ha
  obtain ⟨owner', hinv', hkeep⟩ := step_inv hinv hst.1
  exact ⟨owner', hinv', hkeep i page ho hst.2⟩

/-- **The kmap area is consistent in every reachable state**, and while a page has an outstanding
`kmap` its address and the page table entry of its slot stay the same. -/
theorem reachable_kmap_consistent (c : Config) {t : System} (h : Reachable c t) :
    Consistent c t ∧ ∀ page, c.HighPage page → 0 < t.outstanding page → ∃ i < LAST_PKMAP,
      ∀ t', Relation.ReflTransGen (StepInUse c page) t t' →
        pageAddress c t'.st page = c.PKMAP_ADDR i ∧
        t'.st.pkmapPageTable i = mkPte page kmapProt := by
  obtain ⟨owner, hinv⟩ := reachable_inv h
  refine ⟨hinv.consistent, fun page _ hpos => ?_⟩
  obtain ⟨i, hi⟩ := hinv.idle page hpos
  refine ⟨i, hinv.outside i page hi, fun t' hr => ?_⟩
  obtain ⟨owner', hinv', hi'⟩ := run_keeps ⟨owner, hinv, hi⟩ hr
  exact ⟨pageAddress_owner hinv' hi', hinv'.pte i page hi'⟩

/-- The configuration of the `Makefile`, with the buffer at some address. -/
def biscuitos : Config where
  PHYS_OFFSET := 0x60000000
  MEMORY_SIZE := 0x1000000
  HIGHMEM_SIZE := 0x200000
  offset_pos := Buddy.MemMap.makefileConfig.offset_pos
  offset_aligned := Buddy.MemMap.makefileConfig.offset_aligned
  size_aligned := Buddy.MemMap.makefileConfig.size_aligned
  highmem_aligned := by decide
  no_overflow := by decide
  MMU_PAGE_OFFSET := 0x80000000
  memory := 0xf6000000
  offset_room := by decide
  offset_lt := by decide

/-- The first HighMem page, mapped once. -/
def mappedOnce : System :=
  ⟨((kmap biscuitos 1 init 0x61000).get rfl).1, Function.update (fun _ => 0) 0x61000 1⟩

theorem reachable_kmap_consistent_mappedOnce :
    Consistent biscuitos mappedOnce ∧ ∃ i < LAST_PKMAP,
      pageAddress biscuitos mappedOnce.st 0x61000 = biscuitos.PKMAP_ADDR i := by
  have hhigh : biscuitos.HighPage 0x61000 := ⟨by decide, by decide⟩
  have hst : Step biscuitos ⟨init, fun _ => 0⟩ mappedOnce :=
    @Step.kmap biscuitos init mappedOnce.st (fun _ => 0) 1 0x61000 (biscuitos.PKMAP_ADDR 1) hhigh rfl
  obtain ⟨h1, h2⟩ := reachable_kmap_consistent biscuitos (Relation.ReflTransGen.single hst)
  obtain ⟨i, hi, hrun⟩ := h2 0x61000 hhigh (by decide)
  exact ⟨h1, i, hi, (hrun _ Relation.ReflTransGen.refl).1⟩

end HardStack.Kmap.Mapping
