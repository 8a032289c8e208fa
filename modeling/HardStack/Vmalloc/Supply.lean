import HardStack.Vmalloc.Request

/-! # When `vmalloc` gets its pages

With enough free frames in the supply (`Plenty`), an area that has got its array gets its pages, and
they are mapped: the loop over `alloc_page` does not stop early, no entry of the range is in use, and
every block without a table gets one. -/

namespace HardStack.Vmalloc.Supply

open HardStack.Lib.Word HardStack.Vmalloc.Model HardStack.Vmalloc.Areas HardStack.Vmalloc.Paging
open HardStack.Vmalloc.Entries HardStack.Vmalloc.Account HardStack.Vmalloc.Request

variable {m m' : Machine} {T A B P O : List ℕ} {va area n k fuel : ℕ} {h h' : Heap} {s s' : Walk}
variable {t₀ : Tables} {h₀ : Heap} {prot u₀ u w : ℕ} {page : ℕ → ℕ}

/-- The next `k` answers of the page allocator are free frames. -/
structure Plenty (h : Heap) (k : ℕ) : Prop where
  length : k ≤ h.pageAnswers.length
  managed : ∀ p ∈ h.pageAnswers, Managed p
  nodup : (h.pageAnswers ++ h.livePages).Nodup

theorem Plenty.mono {j : ℕ} (hp : Plenty h k) (hj : j ≤ k) : Plenty h j :=
  ⟨hj.trans hp.length, hp.managed, hp.nodup⟩

theorem allocPage_plenty (hp : Plenty h (k + 1)) :
    ∃ p h', allocPage h = some (p, h') ∧ p ≠ 0 ∧ Plenty h' k := by
  obtain ⟨hlen, hman, hnd⟩ := hp
  rcases hans : h.pageAnswers with _ | ⟨p, rest⟩
  · rw [hans] at hlen
    exact absurd hlen (by simp)
  · rw [hans] at hlen hman hnd
    have hm := hman p List.mem_cons_self
    rw [List.cons_append, List.nodup_cons, List.mem_append, not_or] at hnd
    refine ⟨p, { h with pageAnswers := rest, livePages := p :: h.livePages }, ?_, (managed_lt hm).2,
      by simpa using hlen, fun q hq => hman q (List.mem_cons_of_mem _ hq), ?_⟩
    · simp only [allocPage, hans]
      rw [if_neg (managed_lt hm).2, if_pos ⟨hm, hnd.1.2⟩]
    · show (rest ++ p :: h.livePages).Nodup
      rw [List.perm_middle.nodup_iff, List.nodup_cons, List.mem_append, not_or]
      exact hnd

theorem fillArray_plenty : ∀ {n i : ℕ} {h : Heap} {s : VmStruct}, Plenty h (n + k) →
    ∃ h' s', fillArray n i h s = some (h', s', true) ∧ Plenty h' k
  | 0, _, h, s, hp => ⟨h, s, rfl, by rwa [Nat.zero_add] at hp⟩
  | n + 1, i, h, s, hp => by
    rw [Nat.add_right_comm] at hp
    obtain ⟨p, h₁, hp₁, hne, hplenty⟩ := allocPage_plenty hp
    obtain ⟨h', s', hfill, hplenty'⟩ := fillArray_plenty (n := n) (i := i + 1)
      (s := { s with page := Function.update s.page i p }) hplenty
    refine ⟨h', s', ?_, hplenty'⟩
    rw [fillArray, hp₁]
    simp only [Option.bind_eq_bind, Option.bind_some]
    rw [if_neg hne]
    exact hfill

/-! ### The walk -/

/-- The range has no entries yet, and every page of the array is there. -/
structure Blank (page : ℕ → ℕ) (t₀ : Tables) (u₀ stop : ℕ) : Prop where
  page : ∀ i < stop - u₀, page i ≠ 0
  entry : ∀ v, u₀ ≤ v → v < stop → entry t₀ v = 0

theorem vmapPteLoop_blank {b stop : ℕ} (hbl : Blank page t₀ u₀ stop) (hw : w < 2 ^ 20 - 512)
    (hb : w ≤ (b + 1) * 512) (hstop : w ≤ stop) {T : List ℕ} : ∀ {n u : ℕ} {s : Walk},
    Mapped prot page t₀ h₀ T u₀ u s → s.tables.dir (2 * b) ≠ 0 → u / 512 = b → u < w → w - u ≤ n →
    ∃ s', vmapPteLoop prot page n s (s.tables.dir (2 * b) / 4096, u % 512) (4096 * u) (4096 * w) =
      some (s', 0) ∧ s'.heap = s.heap := by
  intro n
  induction n with
  | zero => exact fun _ _ _ hu hn => absurd hn (by omega)
  | succ n ih =>
    intro u s hm hne hub hu hn
    subst hub
    have hnr := hm.nr
    have hnone : pteNone s.tables (s.tables.dir (2 * (u / 512)) / 4096, u % 512) = true := by
      have hentry := hm.entry u
      rw [if_neg (by omega), hbl.entry u (by omega) (by omega), entry_of_some hne] at hentry
      simpa [pteNone] using hentry
    rw [vmapPteLoop]
    dsimp only
    rw [if_neg (not_not.mpr hnone), if_neg (hbl.page s.nr (by omega)), addW_page (by omega)]
    by_cases hend : u + 1 = w
    · rw [if_neg (not_not.mpr (by rw [hend]))]
      exact ⟨_, rfl, rfl⟩
    · rw [if_pos (by omega), show u % 512 + 1 = (u + 1) % 512 by omega]
      exact ih (hm.setPte hne) hne (by omega) (by omega) (by omega)

theorem pteAllocKernel_plenty {pmd addr : ℕ} (hp : Plenty s.heap (k + 1)) :
    ∃ s' pte, pteAllocKernel s pmd addr = some (s', some pte) ∧ Plenty s'.heap k := by
  unfold pteAllocKernel pteAllocNew
  by_cases h0 : pmdNone s.tables pmd = true
  · obtain ⟨p, h', hp', hne, hplenty⟩ := allocPage_plenty hp
    rw [if_pos h0, hp']
    simp only [Option.bind_eq_bind, Option.bind_some]
    rw [if_neg hne]
    exact ⟨_, _, rfl, hplenty⟩
  · rw [if_neg h0]
    exact ⟨_, _, rfl, hp.mono (Nat.le_succ k)⟩

theorem vmapPteRange_blank {stop : ℕ} {T : List ℕ} (hbl : Blank page t₀ u₀ stop)
    (hT : ∀ f ∈ T, f ∈ h₀.livePages) (hw : w < 2 ^ 20 - 512) (hb : w ≤ (u / 512 + 1) * 512)
    (hstop : w ≤ stop) (hu : u < w) (hf : w - u ≤ fuel) (hm : Mapped prot page t₀ h₀ T u₀ u s)
    (hp : Plenty s.heap (k + 1)) :
    ∃ s', vmapPteRange prot page fuel s (2 * (u / 512)) (4096 * u) (4096 * w) = some (s', 0) ∧
      Plenty s'.heap k := by
  obtain ⟨s₁, pte, hs₁, hplenty⟩ := @pteAllocKernel_plenty _ _ (2 * (u / 512)) (4096 * u) hp
  obtain ⟨hm₁, hpte⟩ := pteAllocKernel_spec hT hm hs₁
  obtain ⟨hne, rfl⟩ := hpte pte rfl
  obtain ⟨s', hs', hheap⟩ := vmapPteLoop_blank hbl hw hb hstop hm₁ hne rfl hu hf
  refine ⟨s', ?_, by rw [hheap]; exact hplenty⟩
  unfold vmapPteRange
  rw [hs₁]
  exact hs'

/-- **Mapping** a blank range succeeds. -/
theorem vmapPageRange_blank {T : List ℕ} (hbl : Blank page t₀ u w) (ht : TablesOk t₀ T)
    (hT : ∀ f ∈ T, f ∈ h₀.livePages) (hu : u < w) (hw : w < 2 ^ 20 - 512) (hf : w - u < fuel)
    (hp : Plenty h₀ (w - u)) :
    ∃ s r, vmapPageRange prot page fuel t₀ h₀ (4096 * u) (4096 * w) = some (s, r) ∧ 0 < r := by
  have hstart : Mapped prot page t₀ h₀ T u u ⟨t₀, h₀, 0⟩ := by
    refine ⟨⟨[], ht, List.Perm.refl _, id, rfl⟩, fun v => (if_neg (by omega)).symm, ?_⟩
    exact Nat.zero_add u
  have hends := @levelLoop_ends w Walk (vmapPudRange prot page fuel)
    (fun x s => Mapped prot page t₀ h₀ T u x s ∧ Plenty s.heap (w - x) ∧ u ≤ x)
    (fun _ => False) False hw (fun s x w' hI hxw hw' hblock => ?_) fuel u _ (Or.inr (by omega)) hu
    ⟨hstart, hp, le_rfl⟩
  · unfold vmapPageRange
    rw [if_neg (by omega), pgdOffsetK_eq]
    show ∃ s r, (levelLoop (addrEnd (2 ^ 21)) 2 _ fuel (Walk.mk t₀ h₀ 0) _ _ _ >>= _) = _ ∧ _
    generalize levelLoop (addrEnd (2 ^ 21)) 2 (vmapPudRange prot page fuel) fuel (Walk.mk t₀ h₀ 0)
      (2 * (u / 512)) (4096 * u) (4096 * w) = res at hends ⊢
    rcases res with _ | ⟨s, err⟩
    · exact absurd hends id
    · by_cases he : err = 0
      · obtain ⟨hm, -⟩ := hends.1 he
        refine ⟨s, (s.nr : ℤ), ?_, ?_⟩
        · simp [he]
        · have := hm.nr
          omega
      · exact absurd (hends.2 he).2 id
  · obtain ⟨hm, hplenty, hxu⟩ := hI
    obtain ⟨j, rfl⟩ : ∃ j, fuel = j + 1 := ⟨fuel - 1, by omega⟩
    obtain ⟨s', hs', hplenty'⟩ := @vmapPteRange_blank (w - x - 1) (j + 1) _ _ _ _ _ _ _ _ _ _ hbl hT
      (by omega) hblock hw' hxw (by omega) hm (hplenty.mono (by omega))
    have hm' := @vmapPteRange_ends _ _ _ _ (j + 1) _ _ _ _ _ _ hT (by omega) hblock hw' hxw hm
    rw [hs'] at hm'
    have hbody : vmapPudRange prot page (j + 1) s (2 * (x / 512)) (4096 * x) (4096 * w') =
        some (s', 0) := by
      show Option.map toENOMEM (levelLoop (addrEnd (2 ^ 21)) 2 (vmapPmdRange prot page (j + 1)) (j + 1)
        s _ _ _) = _
      rw [one_entry hxw (by omega) hblock]
      show Option.map toENOMEM (Option.map toENOMEM (levelLoop (addrEnd (2 ^ 21)) 1 _ (j + 1) s _ _ _))
        = _
      rw [one_entry hxw (by omega) hblock, hs']
      rfl
    rw [hbody]
    exact ⟨fun _ => ⟨hm'.1 rfl, hplenty'.mono (by omega), by omega⟩, fun h0 => absurd rfl h0⟩

/-! ### The calls -/

/-- **`__vmalloc_area_node`** from the loop over the pages on succeeds. -/
theorem vmallocAreaPages_plenty (h : Core m T A (va :: B) P (objsOf m va ++ O))
    (hr : Ready m va area n) (hn : 0 < n) (hB : ∀ b ∈ B, b ∈ O ∧ m.vmOf b ∈ O) (hf : n < fuel)
    (hp : Plenty m.heap (n + n)) :
    ∃ m', vmallocAreaPages fuel m area = some (m', m.vm.vaStart va) := by
  have hst : m.vmStruct area = structOf m va := by
    unfold structOf
    rw [hr.vmOf]
  obtain ⟨heap, s, hfill, hplenty⟩ := fillArray_plenty (i := 0) (s := structOf m va) hp
  obtain ⟨hcore, -, hself, hman, ⟨hsize, hguard, -⟩, haddr, hnr⟩ := filled_core h hr hB hfill
  unfold vmallocAreaPages
  rw [hst, hr.nrPages, hfill]
  simp only [Option.bind_eq_bind, Option.bind_some, if_true]
  set m₁ := { m with heap := heap }.setStruct area s with hm₁
  obtain ⟨u, w, hu, hw, hu1, huw, hw1⟩ := hcore.span (hcore.mem.mpr (Or.inl List.mem_cons_self))
  have hu' : m.vm.vaStart va = 4096 * u := hu
  have hw' : m.vm.vaEnd va = 4096 * w := hw
  have hstop := hr.stop
  have hgs : getVmAreaSize s = 4096 * n := by
    unfold getVmAreaSize
    rw [if_pos hguard, hsize]
    show 4096 * (n + 1) - 4096 = _
    omega
  have hend : addW 32 s.addr (getVmAreaSize s) = 4096 * (u + n) := by
    rw [hgs, haddr, hu']
    unfold addW
    omega
  have hblank : Blank s.page m₁.tables u (u + n) := by
    refine ⟨fun i hi => (managed_lt (hman i (by rw [hnr rfl]; omega))).2, fun v h1 h2 => ?_⟩
    refine hr.empty v ?_
    unfold Covers
    omega
  have hT : ∀ f ∈ T, f ∈ m₁.heap.livePages := fun f hf =>
    hcore.pages.symm.subset (List.mem_append_left _ hf)
  obtain ⟨t, r, hwalk, hr0⟩ := @vmapPageRange_blank fuel _ _ PAGE_KERNEL _ _ _ _ hblank
    hcore.tables hT (by omega) (by omega) (by omega) (by rw [Nat.add_sub_cancel_left]; exact hplenty)
  unfold mapVmArea
  rw [hend, haddr, hu', hwalk]
  simp only [Option.bind_eq_bind, Option.bind_some]
  rw [if_pos hr0]
  exact ⟨_, rfl⟩

/-- **`__vmalloc_area_node`** succeeds once it has its array. -/
theorem vmallocAreaNode_plenty {f : Machine → ℕ → Option (Machine × ℕ)} {m₀ m₂ : Machine} {x : Ptr}
    (hf : ∀ {m m' addr}, Core m T A (va :: B) P (va :: area :: O) → f m (n * 4) = some (m', addr) →
      Outcome m m' T A (va :: B) P (va :: area :: O) (n * 4) addr)
    (h : Core m T A (va :: B) P (va :: area :: O)) (hst : Started m₀ m va area n) (hn : 0 < n)
    (hn' : n ≤ 4096) (hB : ∀ b ∈ B, b ∈ O ∧ m.vmOf b ∈ O)
    (hm₂ : allocArray f (m.setStruct area { m.vmStruct area with nrPages := n }) (n * 4) =
      some (m₂, some x)) (hfuel : n < fuel) (hp : Plenty m₂.heap (n + n)) :
    ∃ m', vmallocAreaNode f fuel m area = some (m', m.vm.vaStart va) := by
  obtain ⟨N, L, harr⟩ := arrayed_spec hf h hst hB hm₂
  obtain ⟨hnr, hmod⟩ := hst.nrPages hn'
  set m₃ := m₂.setStruct area { m₂.vmStruct area with pages := some x } with hm₃
  have hcore := harr.core
  have hobj : slabArray (structOf m₃ va) ++ ([va, area] ++ O) = objsOf m₃ va ++ O := by
    unfold objsOf
    rw [harr.ready.vmOf, List.append_assoc]
  rw [hobj] at hcore
  obtain ⟨m', hm'⟩ := vmallocAreaPages_plenty hcore harr.ready hn harr.others hfuel hp
  refine ⟨m', ?_⟩
  unfold vmallocAreaNode
  rw [hnr]
  dsimp only
  rw [hmod, hm₂]
  simp only [Option.bind_eq_bind, Option.bind_some]
  rw [if_neg (by simp), ← hm₃, hm', harr.vaStart]

end HardStack.Vmalloc.Supply
