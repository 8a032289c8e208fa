import HardStack.Vmalloc.Account

/-! # Releasing an area

`remove_vm_area` takes an area under way out of the set and clears its entries; `vfree` also gives
back its pages, its array and its records. Both leave everything else alone. -/

namespace HardStack.Vmalloc.Release

open HardStack.Lib.Word HardStack.Rbtree.Layout HardStack.Vmalloc.Model HardStack.Vmalloc.Areas
open HardStack.Vmalloc.Run HardStack.Vmalloc.Paging HardStack.Vmalloc.Entries
open HardStack.Vmalloc.Account

variable {m m' : Machine} {T A B P O : List ℕ} {a va n fuel : ℕ}

/-! ### `remove_vm_area` -/

/-- The machine after the fields of the area have been reset. -/
def reset (m : Machine) (va : ℕ) : Machine :=
  { m with
    vmOf := Function.update m.vmOf va 0
    vm.flags := Function.update m.vm.flags va
      ((m.vm.flags va &&& notW 32 VM_VM_AREA) ||| VM_LAZY_FREE) }

theorem removeVmArea_eq (h : Core m T A B P O) (hva : va ∈ m.vm.list)
    (hfind : findVmapArea fuel m.vm (m.vm.vaStart va) = some va) :
    removeVmArea fuel m (m.vm.vaStart va) = freeUnmapVmapArea fuel (reset m va) va := by
  unfold removeVmArea
  rw [hfind]
  simp only [Option.bind_eq_bind, Option.bind_some]
  rw [if_pos ⟨h.areas.nodes.2 va hva, (h.record va hva).flags⟩]
  rfl

/-- What `remove_vm_area` has done to the allocators. -/
structure Removed (m m' : Machine) (va : ℕ) : Prop where
  struct : m'.vmStruct = m.vmStruct
  freedPages : m'.heap.freedPages = m.heap.freedPages
  freedObjs : m'.heap.freedObjs = m.heap.freedObjs ++ [.slab va]

/-- **`remove_vm_area`** of an area under way. -/
theorem removeVmArea_spec (h : Core m T A (va :: B) P O) {O' : List ℕ} (hO : O.Perm (va :: O'))
    (hB : ∀ b ∈ B, b ∈ O' ∧ m.vmOf b ∈ O')
    (hr : removeVmArea fuel m (m.vm.vaStart va) = some m') :
    Core m' T A B P O' ∧ (∀ a, a ≠ va → SameArea m m' a) ∧ Removed m m' va ∧
      SameEntries m m' va := by
  have hmem : va ∈ m.vm.list := h.mem.mpr (Or.inl List.mem_cons_self)
  have hr' := hr
  unfold removeVmArea at hr'
  obtain ⟨x, hx, -⟩ := Option.bind_eq_some_iff.mp hr'
  obtain rfl := h.find hmem hx
  rw [removeVmArea_eq h hmem hx] at hr
  unfold freeUnmapVmapArea at hr
  simp only [Option.bind_eq_bind, Option.bind_eq_some_iff] at hr
  obtain ⟨t, ht, σ, hσ, hr⟩ := hr
  obtain rfl := Option.some.inj hr
  have hareas : Inv VMALLOC_START VMALLOC_END (reset m x).vm :=
    h.areas.quiet ⟨rfl, rfl, rfl, rfl, Or.inr rfl⟩
  obtain ⟨hinv, hlist, hS, hE⟩ := freeVmapArea_spec hareas hmem hσ
  have hfl : σ.flags = (reset m x).vm.flags := by
    unfold freeVmapArea at hσ
    split_ifs at hσ
    simp only [Option.bind_eq_bind, Option.bind_eq_some_iff, Option.some.injEq] at hσ
    obtain ⟨-, -, -, -, rfl⟩ := hσ
    rfl
  obtain ⟨u, w, hu, hw, hu1, huw, hw1⟩ := h.span hmem
  have hclear : Cleared m.tables u w t := by
    have hret := @vunmapPageRange_returns _ _ _ _ fuel True h.tables huw (by omega)
      (Or.inl trivial)
    have ht' : vunmapPageRange fuel m.tables (4096 * u) (4096 * w) = some t := by
      rw [← hu, ← hw]
      exact ht
    rw [ht'] at hret
    exact hret
  have hsame : ∀ a, a ≠ x → SameArea m { reset m x with
      tables := t, vm := σ, heap := kfree (reset m x).heap (some (.slab x)) } a := by
    intro a ha
    have hvmOf : Function.update m.vmOf x 0 a = m.vmOf a := Function.update_of_ne ha _ _
    refine ⟨congrFun hS a, congrFun hE a, ?_, hvmOf, ?_⟩
    · show σ.flags a = _
      rw [hfl]
      exact Function.update_of_ne ha _ _
    · show m.vmStruct (Function.update m.vmOf x 0 a) = _
      rw [hvmOf]
      rfl
  refine ⟨h.remove hO hB hinv hlist hsame rfl rfl rfl rfl fun u' w' hu' hw' => ?_, hsame,
    ⟨rfl, rfl, rfl⟩, fun v hv => ?_⟩
  · obtain rfl : u' = u := by omega
    obtain rfl : w' = w := by omega
    exact hclear
  · show entry t v = _
    rw [hclear.entry, if_neg]
    intro hin
    refine hv ?_
    unfold Covers
    omega

theorem removeVmArea_of_lt (h : Core m T A (va :: B) P O)
    (hf : m.vm.list.length < fuel ∧ m.vm.vaEnd va - m.vm.vaStart va < 4096 * fuel) :
    ∃ m', removeVmArea fuel m (m.vm.vaStart va) = some m' := by
  have hmem : va ∈ m.vm.list := h.mem.mpr (Or.inl List.mem_cons_self)
  obtain ⟨x, hx, -⟩ := findVmapArea_spec h.areas (m.vm.vaStart va) hf.1
  obtain rfl := h.find hmem hx
  rw [removeVmArea_eq h hmem hx]
  have hareas : Inv VMALLOC_START VMALLOC_END (reset m x).vm :=
    h.areas.quiet ⟨rfl, rfl, rfl, rfl, Or.inr rfl⟩
  obtain ⟨σ, hσ⟩ := @freeVmapArea_of_lt _ _ _ _ fuel hareas hmem hf.1
  obtain ⟨u, w, hu, hw, hu1, huw, hw1⟩ := h.span hmem
  have hret := @vunmapPageRange_returns _ _ _ _ fuel False h.tables huw (by omega)
    (Or.inr (by omega))
  rw [← hu, ← hw] at hret
  rcases ht : vunmapPageRange fuel m.tables (m.vm.vaStart x) (m.vm.vaEnd x) with _ | t
  · rw [ht] at hret
    exact absurd hret id
  · refine ⟨{ reset m x with
      tables := t, vm := σ, heap := kfree (reset m x).heap (some (.slab x)) }, ?_⟩
    unfold freeUnmapVmapArea
    have ht' : vunmapPageRange fuel (reset m x).tables ((reset m x).vm.vaStart x)
        ((reset m x).vm.vaEnd x) = some t := ht
    rw [ht', hσ]
    rfl

/-! ### `vfree` -/

/-- The loop over the array frees its pages, each once. -/
theorem freeArray_spec {page : ℕ → ℕ} : ∀ {n i : ℕ} {h : Heap} {R : List ℕ},
    h.livePages.Perm ((List.range' i n).map page ++ R) →
    (∀ j, i ≤ j → j < i + n → page j ≠ 0) → ∃ h', freeArray page n i h = some h' ∧
      h'.livePages.Perm R ∧ h'.freedPages = h.freedPages ++ (List.range' i n).map page ∧
      h'.liveObjs = h.liveObjs ∧ h'.freedObjs = h.freedObjs
  | 0, i, h, R, hp, _ => ⟨h, rfl, hp, (List.append_nil _).symm, rfl, rfl⟩
  | n + 1, i, h, R, hp, hne => by
    rw [List.range'_succ, List.map_cons, List.cons_append] at hp
    have hp' : (freePages h (page i)).livePages.Perm ((List.range' (i + 1) n).map page ++ R) := by
      have := hp.erase (page i)
      rwa [List.erase_cons_head] at this
    obtain ⟨h', hh, h1, h2, h3, h4⟩ := freeArray_spec hp' fun j hj hj' => hne j (by omega) (by omega)
    refine ⟨h', ?_, h1, ?_, h3, h4⟩
    · rw [freeArray, if_neg (hne i le_rfl (by omega))]
      exact hh
    · rw [h2, List.range'_succ, List.map_cons]
      show (h.freedPages ++ [page i]) ++ _ = _
      rw [List.append_assoc, List.singleton_append]

/-- The array goes back to the slab allocator if it came from there. -/
theorem kvfree_spec {h : Heap} {s : VmStruct} {R : List ℕ}
    (hp : h.liveObjs.Perm (slabArray s ++ R)) :
    (kvfree h s.pages).liveObjs.Perm R ∧ (kvfree h s.pages).livePages = h.livePages ∧
      (kvfree h s.pages).freedPages = h.freedPages ∧
      (kvfree h s.pages).freedObjs = h.freedObjs ++ s.pages.toList := by
  unfold slabArray at hp
  rcases hs : s.pages with _ | x | x
  · rw [hs] at hp
    exact ⟨hp, rfl, rfl, (List.append_nil _).symm⟩
  · rw [hs] at hp
    refine ⟨?_, rfl, rfl, rfl⟩
    have := List.Perm.erase x hp
    rwa [List.singleton_append, List.erase_cons_head] at this
  · rw [hs] at hp
    exact ⟨hp, rfl, rfl, rfl⟩

/-- What `vfree` has done to the allocators. -/
structure Freed (m m' : Machine) (va : ℕ) : Prop where
  pages : m'.heap.freedPages = m.heap.freedPages ++ pagesOf m va
  objs : m'.heap.freedObjs = m.heap.freedObjs ++
    ([.slab va] ++ ((structOf m va).pages.toList ++ [.slab (m.vmOf va)]))

/-- The part of `__vunmap` after `remove_vm_area`. -/
theorem finish_spec {s : VmStruct} {area : ℕ}
    (h : Core m T A B (dataPages s ++ P) (slabArray s ++ area :: O))
    (hs : ∀ i < s.nrPages, Managed (s.page i)) (hB : ∀ b ∈ B, b ∈ O ∧ m.vmOf b ∈ O) :
    ∃ heap, freeArray s.page s.nrPages 0 m.heap = some heap ∧
      Core { m with heap := kfree (kvfree heap s.pages) (some (.slab area)) } T A B P O ∧
      (kfree (kvfree heap s.pages) (some (.slab area))).freedPages =
        m.heap.freedPages ++ dataPages s ∧
      (kfree (kvfree heap s.pages) (some (.slab area))).freedObjs =
        m.heap.freedObjs ++ (s.pages.toList ++ [.slab area]) := by
  have hrange : List.range' 0 s.nrPages = List.range s.nrPages := List.range_eq_range'.symm
  have hp1 : m.heap.livePages.Perm ((List.range' 0 s.nrPages).map s.page ++
      (T ++ (P ++ A.flatMap (pagesOf m)))) := by
    refine h.pages.trans ?_
    rw [hrange, List.append_assoc]
    exact List.perm_append_comm_assoc _ _ _
  obtain ⟨heap, hheap, hl, hfp, hlo, hfo⟩ := freeArray_spec hp1
    fun j _ hj => (managed_lt (hs j (by omega))).2
  have hp2 : heap.liveObjs.Perm (slabArray s ++ (area :: (O ++ A.flatMap (objsOf m)))) := by
    rw [hlo]
    have := h.objs
    rwa [List.append_assoc, List.cons_append] at this
  obtain ⟨hko, hkl, hkp, hkf⟩ := kvfree_spec hp2
  have hobjs : (kfree (kvfree heap s.pages) (some (.slab area))).liveObjs.Perm
      (O ++ A.flatMap (objsOf m)) := by
    have := hko.erase area
    rwa [List.erase_cons_head] at this
  have hpages : (kfree (kvfree heap s.pages) (some (.slab area))).livePages.Perm
      (T ++ (P ++ A.flatMap (pagesOf m))) := by
    show (kvfree heap s.pages).livePages.Perm _
    rw [hkl]
    exact hl
  have hndp : (T ++ (P ++ A.flatMap (pagesOf m))).Nodup :=
    (List.nodup_append.mp (hp1.nodup_iff.mp h.pagesNodup)).2.1
  have hndo : (O ++ A.flatMap (objsOf m)).Nodup := by
    rw [hlo] at hp2
    have := (List.nodup_append.mp (hp2.nodup_iff.mp h.objsNodup)).2.1
    exact (List.nodup_cons.mp this).2
  refine ⟨heap, hheap, h.setHeap hpages (hpages.nodup_iff.mpr hndp) hobjs
    (hobjs.nodup_iff.mpr hndo) hB, ?_, ?_⟩
  · show (kvfree heap s.pages).freedPages = _
    rw [hkp, hfp, hrange]
    rfl
  · show (kvfree heap s.pages).freedObjs ++ [.slab area] = _
    rw [hkf, hfo, List.append_assoc]

/-- `vfree` at the start of an area. -/
theorem vfree_eq (h : Core m T A B P O) (hva : va ∈ m.vm.list)
    (hfind : findVmapArea fuel m.vm (m.vm.vaStart va) = some va) :
    vfree fuel m (m.vm.vaStart va) = (removeVmArea fuel m (m.vm.vaStart va)).bind fun m' =>
      ((freeArray (m'.vmStruct (m.vmOf va)).page (m'.vmStruct (m.vmOf va)).nrPages 0 m'.heap).map
        fun heap => kvfree heap (m'.vmStruct (m.vmOf va)).pages).bind fun heap =>
          some { m' with heap := kfree heap (some (.slab (m.vmOf va))) } := by
  obtain ⟨u, w, hu, -, hu1, -, -⟩ := h.span hva
  have hps : PAGE_SIZE = 4096 := rfl
  unfold vfree vunmap
  rw [if_neg (by omega), if_neg (by omega), if_neg (by rw [hps]; omega), hfind]
  simp only [Option.bind_eq_bind, Option.bind_some]
  rw [if_neg (h.areas.nodes.2 va hva), if_neg (h.record va hva).vmOf]
  rfl

/-- The records that an area under way leaves to its release. -/
theorem objsOf_perm (m : Machine) (va : ℕ) (O : List ℕ) :
    (objsOf m va ++ O).Perm (va :: (slabArray (structOf m va) ++ m.vmOf va :: O)) := by
  unfold objsOf
  rw [List.append_assoc]
  exact List.perm_middle

/-- What the area goes through in `vfree`: it is removed, and then the rest is freed. -/
theorem vfree_steps (h : Core m T A (va :: B) (pagesOf m va ++ P) (objsOf m va ++ O))
    (hB : ∀ b ∈ B, b ∈ O ∧ m.vmOf b ∈ O)
    (hm : ∀ i < (structOf m va).nrPages, Managed ((structOf m va).page i)) {m₁ : Machine}
    (hfind : findVmapArea fuel m.vm (m.vm.vaStart va) = some va)
    (hm₁ : removeVmArea fuel m (m.vm.vaStart va) = some m₁) :
    ∃ m', vfree fuel m (m.vm.vaStart va) = some m' ∧ Core m' T A B P O ∧
      (∀ a, a ≠ va → SameArea m m' a) ∧ Freed m m' va ∧ SameEntries m m' va := by
  have hmem : va ∈ m.vm.list := h.mem.mpr (Or.inl List.mem_cons_self)
  obtain ⟨hcore, hsame, ⟨hstruct, hfp, hfo⟩, hent⟩ := removeVmArea_spec h (objsOf_perm m va O)
    (fun b hb => (hB b hb).imp (fun hx => by simp [hx]) fun hx => by simp [hx]) hm₁
  have hs : m₁.vmStruct (m.vmOf va) = structOf m va := by
    rw [hstruct]
    rfl
  have hnd := h.nodup
  rw [List.cons_append, List.nodup_cons, List.mem_append, not_or] at hnd
  have hB' : ∀ b ∈ B, b ∈ O ∧ m₁.vmOf b ∈ O := fun b hb => by
    rw [(hsame b fun he => hnd.1.1 (he ▸ hb)).vmOf]
    exact hB b hb
  obtain ⟨heap, hheap, hcore', hp, ho⟩ := finish_spec hcore hm hB'
  refine ⟨_, ?_, hcore', fun a ha => (hsame a ha).trans (sameArea_heap m₁ _ a), ⟨?_, ?_⟩, hent⟩
  · rw [vfree_eq h hmem hfind, hm₁, Option.bind_some, hs, hheap]
    rfl
  · show (kfree (kvfree heap _) _).freedPages = _
    rw [hp, hfp]
    rfl
  · show (kfree (kvfree heap _) _).freedObjs = _
    rw [ho, hfo, List.append_assoc]

/-- **`vfree`** of an area under way. -/
theorem vfree_spec (h : Core m T A (va :: B) (pagesOf m va ++ P) (objsOf m va ++ O))
    (hB : ∀ b ∈ B, b ∈ O ∧ m.vmOf b ∈ O)
    (hm : ∀ i < (structOf m va).nrPages, Managed ((structOf m va).page i))
    (hr : vfree fuel m (m.vm.vaStart va) = some m') : Core m' T A B P O ∧
      (∀ a, a ≠ va → SameArea m m' a) ∧ Freed m m' va ∧ SameEntries m m' va := by
  have hmem : va ∈ m.vm.list := h.mem.mpr (Or.inl List.mem_cons_self)
  have hfind : findVmapArea fuel m.vm (m.vm.vaStart va) = some va := by
    obtain ⟨u, w, hu, -, hu1, -, -⟩ := h.span hmem
    have hps : PAGE_SIZE = 4096 := rfl
    have hr' := hr
    unfold vfree vunmap at hr'
    rw [if_neg (by omega), if_neg (by omega), if_neg (by rw [hps]; omega)] at hr'
    obtain ⟨x, hx, -⟩ := Option.bind_eq_some_iff.mp hr'
    rw [hx, h.find hmem hx]
  have hr' := hr
  rw [vfree_eq h hmem hfind] at hr'
  obtain ⟨m₁, hm₁, -⟩ := Option.bind_eq_some_iff.mp hr'
  obtain ⟨m₂, hm₂, hres⟩ := vfree_steps h hB hm hfind hm₁
  obtain rfl := Option.some.inj (hr.symm.trans hm₂)
  exact hres

theorem vfree_of_lt (h : Core m T A (va :: B) (pagesOf m va ++ P) (objsOf m va ++ O))
    (hB : ∀ b ∈ B, b ∈ O ∧ m.vmOf b ∈ O)
    (hm : ∀ i < (structOf m va).nrPages, Managed ((structOf m va).page i))
    (hf : m.vm.list.length < fuel ∧ m.vm.vaEnd va - m.vm.vaStart va < 4096 * fuel) :
    ∃ m', vfree fuel m (m.vm.vaStart va) = some m' := by
  have hmem : va ∈ m.vm.list := h.mem.mpr (Or.inl List.mem_cons_self)
  obtain ⟨x, hx, -⟩ := findVmapArea_spec h.areas (m.vm.vaStart va) hf.1
  obtain rfl := h.find hmem hx
  obtain ⟨m₁, hm₁⟩ := removeVmArea_of_lt h hf
  obtain ⟨m', hm', -⟩ := vfree_steps h hB hm hx hm₁
  exact ⟨m', hm'⟩

end HardStack.Vmalloc.Release
