import HardStack.Vmalloc.Release

/-! # Requesting an area

`__get_vm_area_node` starts an area, `__vmalloc_area_node` gets its array and its pages and maps them.
Where something fails, the area is released again. Only the areas of large arrays stay behind then:
`kvfree` hands them to the slab allocator. -/

namespace HardStack.Vmalloc.Request

open HardStack.Lib.Word HardStack.Rbtree.Layout HardStack.Vmalloc.Model HardStack.Vmalloc.Areas
open HardStack.Vmalloc.Run HardStack.Vmalloc.Paging HardStack.Vmalloc.Entries
open HardStack.Vmalloc.Account HardStack.Vmalloc.Release

variable {m m' : Machine} {T A B P O : List ℕ} {a va area n fuel : ℕ}

/-! ### `__get_vm_area_node` -/

/-- A result of the slab allocator. -/
theorem kmalloc_cases {h h' : Heap} {x : ℕ} (heq : kmalloc h = some (x, h')) :
    (x = 0 ∧ h'.liveObjs = h.liveObjs ∨
      Addr x ∧ x ∉ h.liveObjs ∧ h'.liveObjs = x :: h.liveObjs) ∧
    h'.livePages = h.livePages := by
  unfold kmalloc at heq
  rcases hans : h.objAnswers with _ | ⟨q, rest⟩
  · simp [hans] at heq
  · simp only [hans] at heq
    split_ifs at heq with h0 hq
    · obtain ⟨rfl, rfl⟩ := Prod.mk.inj (Option.some.inj heq.symm)
      exact ⟨Or.inl ⟨rfl, rfl⟩, rfl⟩
    · obtain ⟨rfl, rfl⟩ := Prod.mk.inj (Option.some.inj heq.symm)
      exact ⟨Or.inr ⟨⟨h0, hq.1⟩, hq.2, rfl⟩, rfl⟩

theorem pageAlign_eq (hn : n < 2 ^ 20) : pageAlign (4096 * n) = 4096 * n := by
  unfold pageAlign PAGE_SIZE PAGE_SHIFT
  rw [alignUp_eq (by omega), Nat.mod_eq_of_lt (by omega)]
  omega

theorem exists_pageAlign (x : ℕ) : ∃ k < 2 ^ 20, pageAlign x = 4096 * k := by
  unfold pageAlign PAGE_SIZE PAGE_SHIFT
  rw [alignUp_eq (by omega)]
  refine ⟨_, ?_, rfl⟩
  omega

/-- The new area has no pages yet, and nothing is mapped in it. -/
structure Started (m m' : Machine) (va area n : ℕ) : Prop where
  fresh : va ∉ m.vm.list
  vmOf : m'.vmOf va = area
  stop : m'.vm.vaEnd va = m'.vm.vaStart va + 4096 * (n + 1)
  size : (m'.vmStruct area).size = 4096 * (n + 1)
  guard : (m'.vmStruct area).flags &&& VM_NO_GUARD = 0
  empty : ∀ v, Covers m'.vm va (4096 * v) → entry m'.tables v = 0
  tables : m'.tables = m.tables

/-- `alloc_vmap_area` for whole pages: the new area stands apart from the others. -/
theorem allocVmapArea_spec (h : Core m T A B P O) {σ : Vm} {r : ℕ} (hn : 0 < n) (hn' : n ≤ 2 ^ 19)
    (hva : Addr va) (hfresh : va ∉ m.vm.list)
    (hr : allocVmapArea 32 fuel m.vm va (4096 * n) 1 VMALLOC_START VMALLOC_END = some (σ, some r)) :
    r = va ∧ Allocated m.vm σ va 0 VMALLOC_START VMALLOC_END ∧ 4096 ∣ σ.vaStart va ∧
      σ.vaEnd va = σ.vaStart va + 4096 * n ∧ σ.flags = Function.update m.vm.flags va 0 := by
  unfold allocVmapArea at hr
  rw [if_neg hva.1] at hr
  simp only [Option.bind_eq_bind, Option.bind_eq_some_iff] at hr
  obtain ⟨σ', hloop, hr⟩ := hr
  obtain ⟨rfl, hrv⟩ := Prod.mk.inj (Option.some.inj hr)
  have hreq : Request 32 (4096 * n) 0 := ⟨by omega, by omega, by omega⟩
  have hal := allocLoop_spec hreq h.areas h.noWrap hva hfresh hloop
  obtain ⟨a, horigin, hS, hE, hF⟩ := allocLoop_fields hreq h.areas h.noWrap hloop
  have hone : ∀ x, x < 2 ^ 32 → alignUp 32 x (2 ^ 0) = x := by
    intro x hx
    rw [alignUp_eq (by omega), Nat.pow_zero, Nat.mod_eq_of_lt (by omega)]
    omega
  obtain ⟨hs, he⟩ := vmalloc_range
  refine ⟨(Option.some.inj hrv).symm, hal, ?_, ?_, hF⟩
  · rw [hS, Function.update_self]
    rcases horigin with ho | ⟨x, hx, ho⟩
    · rw [ho, hone _ (by omega), hs]
      exact Nat.dvd_mul_right _ _
    · have hrange := h.areas.range x hx
      rw [ho, hone _ (by omega)]
      exact (h.record x hx).stop
  · rw [hS, hE, Function.update_self, Function.update_self]

/-- A new area among the old ones. -/
theorem started_core {m' : Machine} (h : Core m T A B P O) (hn : 0 < n) (hn' : n < 2 ^ 19)
    (harea : Addr area) (hva : Addr va) (hfa : area ∉ m.heap.liveObjs)
    (hfv : va ∉ area :: m.heap.liveObjs) {σ : Vm}
    (hal : Allocated m.vm σ va 0 VMALLOC_START VMALLOC_END) (hstart : 4096 ∣ σ.vaStart va)
    (hstop : σ.vaEnd va = σ.vaStart va + 4096 * (n + 1))
    (hflags : σ.flags = Function.update m.vm.flags va 0)
    (hvm : m'.vm = { σ with flags := Function.update σ.flags va (σ.flags va ||| VM_VM_AREA) })
    (hvmOf : m'.vmOf = Function.update m.vmOf va area)
    (hstruct : m'.vmStruct = Function.update m.vmStruct area
      ⟨σ.vaStart va, σ.vaEnd va - σ.vaStart va, VM_ALLOC ||| VM_UNINITIALIZED, none, fun _ => 0, 0⟩)
    (htab : m'.tables = m.tables) (hlp : m'.heap.livePages = m.heap.livePages)
    (hlo : m'.heap.liveObjs = va :: area :: m.heap.liveObjs) :
    Core m' T A (va :: B) P (va :: area :: O) ∧ (∀ a ∈ m.vm.list, SameArea m m' a) ∧
      Started m m' va area n := by
  have hfresh : va ∉ m.vm.list := fun hx => hfv (List.mem_cons_of_mem _ (h.obj_live hx).1)
  have hne : ∀ a ∈ m.vm.list, a ≠ va ∧ m.vmOf a ≠ area := fun a ha =>
    ⟨fun he => hfresh (he ▸ ha), fun he => hfa (he ▸ (h.obj_live ha).2)⟩
  have hsame : ∀ a ∈ m.vm.list, SameArea m m' a := by
    intro a ha
    obtain ⟨h1, h2⟩ := hne a ha
    have hvo : m'.vmOf a = m.vmOf a := by rw [hvmOf, Function.update_of_ne h1]
    refine ⟨?_, ?_, ?_, hvo, ?_⟩
    · rw [hvm]
      exact (hal.frame a h1).1
    · rw [hvm]
      exact (hal.frame a h1).2
    · rw [hvm]
      show Function.update σ.flags va _ a = _
      rw [Function.update_of_ne h1, hflags, Function.update_of_ne h1]
    · unfold structOf
      rw [hvo, hstruct, Function.update_of_ne h2]
  have hvmOfva : m'.vmOf va = area := by rw [hvmOf, Function.update_self]
  have hs : structOf m' va = ⟨σ.vaStart va, σ.vaEnd va - σ.vaStart va,
      VM_ALLOC ||| VM_UNINITIALIZED, none, fun _ => 0, 0⟩ := by
    unfold structOf
    rw [hvmOfva, hstruct, Function.update_self]
  obtain ⟨pre, post, hl, hl'⟩ := hal.list
  have hlist : m'.vm.list.Perm (va :: m.vm.list) := by
    rw [hvm, hl]
    show σ.list.Perm _
    rw [hl']
    exact List.perm_middle
  have hareas : Inv VMALLOC_START VMALLOC_END m'.vm := by
    rw [hvm]
    exact hal.inv.quiet ⟨rfl, rfl, rfl, rfl, Or.inr rfl⟩
  have hA : ∀ a ∈ A, a ∈ m.vm.list := fun a ha => h.mem.mpr (Or.inr ha)
  have hB : ∀ b ∈ B, b ∈ m.vm.list := fun b hb => h.mem.mpr (Or.inl hb)
  have hvS : m'.vm.vaStart va = σ.vaStart va := by rw [hvm]
  have hvE : m'.vm.vaEnd va = σ.vaEnd va := by rw [hvm]
  have hrecord : ∀ a ∈ m'.vm.list, Record m' a := by
    intro a ha
    rcases List.mem_cons.mp (hlist.subset ha) with rfl | ha
    · refine ⟨?_, by rw [hvmOfva]; exact harea.1, by rw [hvS]; exact hstart, ?_, by rw [hs, hvS]⟩
      · rw [hvm]
        show Function.update σ.flags a _ a &&& _ ≠ 0
        rw [Function.update_self, hflags, Function.update_self]
        decide
      · rw [hvE, hstop]
        exact Nat.dvd_add hstart (Nat.dvd_mul_right _ _)
    · exact (hsame a ha).record (h.record a ha)
  -- the range of the new area is apart from those of the others, so nothing is mapped there
  have hcovers : ∀ a ∈ m.vm.list, ∀ x, Covers m.vm a x → ¬ Covers m'.vm va x := by
    intro a ha x hc hcva
    have hmem' : a ∈ m'.vm.list := hlist.symm.subset (List.mem_cons_of_mem _ ha)
    have hva' : va ∈ m'.vm.list := hlist.symm.subset List.mem_cons_self
    have hc' := (hsame a ha).covers.mpr hc
    unfold Covers at hc' hcva
    rcases hareas.apart_or hmem' hva' (hne a ha).1 with hx | hx <;> unfold Apart at hx <;> omega
  have hempty : ∀ v, Covers m'.vm va (4096 * v) → entry m'.tables v = 0 := by
    intro v hv
    have hrange := hareas.range va (hlist.symm.subset List.mem_cons_self)
    rw [htab]
    refine h.unmapped v ?_ ?_ (fun a ha hm => ?_) fun b hb hc => hcovers b (hB b hb) _ hc hv
    · exact hrange.1.trans hv.1
    · exact hv.2.trans_le hrange.2.2
    · exact hcovers a (hA a ha) _ ((h.complete a ha).covers (h.record a (hA a ha)) hm) hv
  refine ⟨⟨hareas, ?_, hrecord, ?_, ?_, ?_, ?_, ?_, ?_, ?_, ?_⟩, hsame, hfresh, hvmOfva, ?_, ?_, ?_,
    hempty, htab⟩
  · exact hlist.trans (h.listed.cons va)
  · exact fun a ha => (hsame a (hA a ha)).complete (h.complete a ha) fun v _ => by rw [htab]
  · intro v h1 h2 hA' hB'
    rw [htab]
    refine h.unmapped v h1 h2 (fun a ha hm => hA' a ha ((hsame a (hA a ha)).maps.mpr hm))
      fun b hb hc => hB' b (List.mem_cons_of_mem _ hb) ((hsame b (hB b hb)).covers.mpr hc)
  · rw [htab]
    exact h.tables
  · rw [hlp, List.flatMap_congr fun a ha => (hsame a (hA a ha)).pagesOf]
    exact h.pages
  · rw [hlp]
    exact h.pagesNodup
  · rw [hlo, List.flatMap_congr fun a ha => (hsame a (hA a ha)).objsOf]
    exact (h.objs.cons area).cons va
  · rw [hlo, List.nodup_cons, List.nodup_cons]
    exact ⟨hfv, hfa, h.objsNodup⟩
  · intro b hb
    rcases List.mem_cons.mp hb with rfl | hb
    · rw [hvmOfva]
      simp
    · rw [(hsame b (hB b hb)).vmOf]
      exact (h.pending b hb).imp (fun hx => by simp [hx]) fun hx => by simp [hx]
  · rw [hvE, hvS, hstop]
  · rw [hstruct, Function.update_self]
    show σ.vaEnd va - σ.vaStart va = _
    omega
  · rw [hstruct, Function.update_self]
    show (VM_ALLOC ||| VM_UNINITIALIZED) &&& VM_NO_GUARD = 0
    decide

/-- **`__get_vm_area_node`** for `n` pages and the guard page. -/
theorem getVmAreaNode_spec (h : Core m T A B P O) (hn : 0 < n) (hn' : n ≤ 4096)
    (hr : getVmAreaNode fuel m (4096 * n) 1 (VM_ALLOC ||| VM_UNINITIALIZED) VMALLOC_START
      VMALLOC_END = some (m', area)) :
    (area = 0 → Core m' T A B P O ∧ (∀ a ∈ m.vm.list, SameArea m m' a) ∧ m'.tables = m.tables) ∧
    (area ≠ 0 → ∃ va, Core m' T A (va :: B) P (va :: area :: O) ∧
      (∀ a ∈ m.vm.list, SameArea m m' a) ∧ Started m m' va area n) := by
  have hsz : pageAlign (4096 * n) = 4096 * n := pageAlign_eq (by omega)
  have hadd : addW 32 (4096 * n) PAGE_SIZE = 4096 * (n + 1) := by
    unfold addW PAGE_SIZE PAGE_SHIFT
    omega
  have hal : areaAlign (4096 * n) 1 (VM_ALLOC ||| VM_UNINITIALIZED) = 1 := rfl
  unfold getVmAreaNode at hr
  simp only [hsz, hal] at hr
  rw [if_neg (by omega)] at hr
  obtain ⟨⟨x, heap₁⟩, hk₁, hr⟩ := Option.bind_eq_some_iff.mp hr
  obtain ⟨hcase₁, hl₁⟩ := kmalloc_cases hk₁
  dsimp only at hr
  rcases hcase₁ with ⟨rfl, ho₁⟩ | ⟨hx, hfx, ho₁⟩
  · rw [if_pos rfl] at hr
    obtain ⟨rfl, rfl⟩ := Prod.mk.inj (Option.some.inj hr.symm)
    exact ⟨fun _ => and_assoc.mp ⟨h.congr rfl rfl (fun _ _ => rfl) rfl hl₁ ho₁, rfl⟩,
      fun h0 => absurd rfl h0⟩
  · rw [if_neg hx.1, if_pos (by decide), hadd] at hr
    obtain ⟨⟨y, heap₂⟩, hk₂, hr⟩ := Option.bind_eq_some_iff.mp hr
    obtain ⟨⟨σ, found⟩, hav, hres⟩ := Option.bind_eq_some_iff.mp hr
    obtain ⟨hcase₂, hl₂⟩ := kmalloc_cases hk₂
    have hav' : allocVmapArea 32 fuel m.vm y (4096 * (n + 1)) 1 VMALLOC_START VMALLOC_END =
      some (σ, found) := hav
    dsimp only at hres
    rcases hcase₂ with ⟨rfl, ho₂⟩ | ⟨hy, hfy, ho₂⟩
    · -- no memory for the area: its `struct vm_struct` goes back
      unfold allocVmapArea at hav'
      rw [if_pos rfl] at hav'
      obtain ⟨rfl, rfl⟩ := Prod.mk.inj (Option.some.inj hav'.symm)
      obtain ⟨rfl, rfl⟩ := Prod.mk.inj (Option.some.inj hres.symm)
      refine ⟨fun _ => and_assoc.mp ⟨h.congr rfl rfl (fun a ha => ?_) rfl (hl₂.trans hl₁) ?_, rfl⟩,
        fun h0 => absurd rfl h0⟩
      · exact Function.update_of_ne (fun he => hfx (by rw [← he]; exact (h.obj_live ha).2)) _ _
      · show heap₂.liveObjs.erase x = _
        rw [ho₂]
        show heap₁.liveObjs.erase x = _
        rw [ho₁, List.erase_cons_head]
    · have hfy' : y ∉ x :: m.heap.liveObjs := by
        rw [← ho₁]
        exact hfy
      have hfresh : y ∉ m.vm.list := fun hm => hfy' (List.mem_cons_of_mem _ (h.obj_live hm).1)
      rcases found with _ | r
      · unfold allocVmapArea at hav'
        rw [if_neg hy.1] at hav'
        obtain ⟨σ', -, hσ'⟩ := Option.bind_eq_some_iff.mp hav'
        exact absurd (Prod.mk.inj (Option.some.inj hσ')).2 (by simp)
      · obtain ⟨rfl, hal', hstart, hstop, hflags⟩ :=
          allocVmapArea_spec h (by omega) (by omega) hy hfresh hav'
        obtain ⟨rfl, rfl⟩ := Prod.mk.inj (Option.some.inj hres.symm)
        refine ⟨fun h0 => absurd h0 hx.1, fun _ => ⟨r, ?_⟩⟩
        refine started_core h hn (by omega) hx hy hfx hfy' hal' hstart hstop hflags rfl rfl ?_ rfl
          (hl₂.trans hl₁) ?_
        · show Function.update (Function.update m.vmStruct area _) area _ = _
          rw [Function.update_idem]
          simp only [Machine.setStruct, Function.update_self]
        · show heap₂.liveObjs = _
          rw [ho₂]
          show r :: heap₁.liveObjs = _
          rw [ho₁]

/-! ### An area under way -/

/-- The area `va` is under way with its `struct vm_struct` at `area`; `Q` are its objects, and what the
other areas under way need is in `O`. -/
structure Underway (m : Machine) (B O : List ℕ) (va area : ℕ) : Prop where
  vmOf : m.vmOf va = area
  others : ∀ b ∈ B, b ∈ O ∧ m.vmOf b ∈ O

/-- No other area uses its `struct vm_struct`. -/
theorem vmOf_ne {X : List ℕ} (h : Core m T A (va :: B) P (X ++ ([va, area] ++ O)))
    (hu : Underway m B O va area) (ha : a ∈ m.vm.list) (hne : a ≠ va) : m.vmOf a ≠ area := by
  intro heq
  have hnd := h.objs.nodup_iff.mp h.objsNodup
  rw [List.append_assoc, List.append_assoc, List.nodup_append] at hnd
  have hnd' := hnd.2.1
  rw [List.nodup_append] at hnd'
  rcases h.mem.mp ha with hb | ha'
  · have hb' : a ∈ B := (List.mem_cons.mp hb).resolve_left hne
    exact hnd'.2.2 area (by simp) area
      (List.mem_append_left _ (heq ▸ (hu.others a hb').2)) rfl
  · refine hnd'.2.2 area (by simp) area (List.mem_append_right _ ?_) rfl
    exact List.mem_flatMap.mpr ⟨a, ha', by rw [← heq]; simp [objsOf]⟩

/-- Writing the `struct vm_struct` of an area under way. -/
theorem Underway.setStruct {X : List ℕ} {s : VmStruct}
    (hu : Underway m B O va area) (h : Core m T A (va :: B) P (X ++ ([va, area] ++ O)))
    (hs : s.addr = m.vm.vaStart va) :
    Core (m.setStruct area s) T A (va :: B) P (X ++ ([va, area] ++ O)) ∧
      (∀ a ∈ m.vm.list, a ≠ va → SameArea m (m.setStruct area s) a) ∧
      structOf (m.setStruct area s) va = s := by
  have hself : structOf (m.setStruct area s) va = s := by
    show Function.update m.vmStruct area s (m.vmOf va) = s
    rw [hu.vmOf, Function.update_self]
  have hsame : ∀ a ∈ m.vm.list, a ≠ va → SameArea m (m.setStruct area s) a := fun a ha hne =>
    ⟨rfl, rfl, rfl, rfl, Function.update_of_ne (vmOf_ne h hu ha hne) _ _⟩
  have hnd := h.nodup
  rw [List.cons_append, List.nodup_cons, List.mem_append, not_or] at hnd
  have hA : ∀ a ∈ A, SameArea m (m.setStruct area s) a := fun a ha =>
    hsame a (h.mem.mpr (Or.inr ha)) fun he => hnd.1.2 (he ▸ ha)
  refine ⟨⟨h.areas, h.listed, fun a ha => ?_, ?_, ?_, h.tables, ?_, h.pagesNodup, ?_, h.objsNodup,
    h.pending⟩, hsame, hself⟩
  · by_cases hne : a = va
    · subst hne
      obtain ⟨h1, h2, h3, h4, -⟩ := h.record a ha
      exact ⟨h1, h2, h3, h4, by rw [hself]; exact hs⟩
    · exact (hsame a ha hne).record (h.record a ha)
  · exact fun a ha => (hA a ha).complete (h.complete a ha) fun _ _ => rfl
  · exact fun v h1 h2 hA' hB' =>
      h.unmapped v h1 h2 (fun a ha hm => hA' a ha ((hA a ha).maps.mpr hm)) hB'
  · rw [List.flatMap_congr fun a ha => (hA a ha).pagesOf]
    exact h.pages
  · rw [List.flatMap_congr fun a ha => (hA a ha).objsOf]
    exact h.objs

/-- What a call leaves alone: the records of all areas, and the entries of those under way. -/
structure Frame (m m' : Machine) (B : List ℕ) : Prop where
  same : ∀ a ∈ m.vm.list, SameArea m m' a
  entries : ∀ b ∈ B, ∀ v, Covers m.vm b (4096 * v) → entry m'.tables v = entry m.tables v

/-- The same for all areas but the one under way. -/
structure FrameBut (m m' : Machine) (va : ℕ) : Prop where
  same : ∀ a ∈ m.vm.list, a ≠ va → SameArea m m' a
  entries : SameEntries m m' va

/-! ### The array and the pages -/

theorem fillArray_spec : ∀ {n i : ℕ} {h h' : Heap} {s s' : VmStruct} {ok : Bool},
    fillArray n i h s = some (h', s', ok) → h.livePages.Nodup →
    (s'.addr = s.addr ∧ s'.size = s.size ∧ s'.flags = s.flags ∧ s'.pages = s.pages) ∧
    (∀ j < i, s'.page j = s.page j) ∧
    (ok = true → s'.nrPages = s.nrPages) ∧
    (∃ k, k ≤ n ∧ (ok = true → k = n) ∧ (ok = false → s'.nrPages = i + k) ∧
      (∀ j, i ≤ j → j < i + k → Managed (s'.page j)) ∧
      h'.livePages.Perm ((List.range' i k).map s'.page ++ h.livePages)) ∧
    h'.livePages.Nodup ∧ h'.liveObjs = h.liveObjs
  | 0, i, h, h', s, s', ok, heq, hnd => by
    obtain ⟨rfl, rfl, rfl⟩ : h = h' ∧ s = s' ∧ true = ok := by simpa [fillArray] using heq
    exact ⟨⟨rfl, rfl, rfl, rfl⟩, fun _ _ => rfl, fun _ => rfl,
      ⟨0, le_rfl, fun _ => rfl, fun h0 => (by cases h0), fun j h1 h2 => by omega,
        List.Perm.refl _⟩, hnd, rfl⟩
  | n + 1, i, h, h', s, s', ok, heq, hnd => by
    rw [fillArray] at heq
    obtain ⟨⟨p, h₁⟩, hp, heq⟩ := Option.bind_eq_some_iff.mp heq
    obtain ⟨hcase, ho⟩ := allocPage_cases hp
    dsimp only at heq
    rcases hcase with ⟨rfl, hl⟩ | ⟨hm, hfresh, hl⟩
    · rw [if_pos rfl] at heq
      obtain ⟨rfl, rfl, rfl⟩ : h₁ = h' ∧ { s with nrPages := i } = s' ∧ false = ok := by
        simpa using heq
      exact ⟨⟨rfl, rfl, rfl, rfl⟩, fun _ _ => rfl, fun h0 => (by cases h0),
        ⟨0, by omega, fun h0 => (by cases h0), fun _ => rfl, fun j h1 h2 => by omega,
          by rw [hl]; exact List.Perm.refl _⟩, by rw [hl]; exact hnd, ho⟩
    · rw [if_neg (managed_lt hm).2] at heq
      obtain ⟨hf, hold, hnr, ⟨k, hk, hk1, hk2, hman, hperm⟩, hnd', ho'⟩ :=
        fillArray_spec heq (by rw [hl]; exact List.nodup_cons.mpr ⟨hfresh, hnd⟩)
      have hpi : s'.page i = p := by
        rw [hold i (by omega)]
        exact Function.update_self _ _ _
      refine ⟨hf, fun j hj => ?_, hnr, ⟨k + 1, by omega, fun h0 => by rw [hk1 h0],
        fun h0 => by rw [hk2 h0]; omega, fun j h1 h2 => ?_, ?_⟩, hnd', ho'.trans ho⟩
      · rw [hold j (by omega)]
        exact Function.update_of_ne (by omega) _ _
      · by_cases hji : j = i
        · rw [hji, hpi]
          exact hm
        · exact hman j (by omega) (by omega)
      · rw [hl] at hperm
        rw [List.range'_succ, List.map_cons, hpi]
        exact hperm.trans List.perm_middle

/-! ### Mapping the pages -/

/-- The area under way has a `struct vm_struct` for `n` pages, and nothing is mapped in it. -/
structure Ready (m : Machine) (va area n : ℕ) : Prop where
  vmOf : m.vmOf va = area
  stop : m.vm.vaEnd va = m.vm.vaStart va + 4096 * (n + 1)
  size : (structOf m va).size = 4096 * (n + 1)
  guard : (structOf m va).flags &&& VM_NO_GUARD = 0
  empty : ∀ v, Covers m.vm va (4096 * v) → entry m.tables v = 0
  nrPages : (structOf m va).nrPages = n

/-- New tables, and new entries in the range of an area under way. -/
theorem setEntries_core {t : Tables} {heap : Heap} {N : List ℕ} (h : Core m T A (va :: B) P O)
    (ht : TablesOk t (N ++ T)) (hg : Grown m.heap heap N)
    (he : ∀ v, ¬ Covers m.vm va (4096 * v) → entry t v = entry m.tables v) :
    Core { m with tables := t, heap := heap } (N ++ T) A (va :: B) P O := by
  have hmem : va ∈ m.vm.list := h.mem.mpr (Or.inl List.mem_cons_self)
  have hnd := h.nodup
  rw [List.cons_append, List.nodup_cons, List.mem_append, not_or] at hnd
  have hsame : ∀ a, SameArea m { m with tables := t, heap := heap } a := fun a =>
    ⟨rfl, rfl, rfl, rfl, rfl⟩
  refine ⟨h.areas, h.listed, fun a ha => (hsame a).record (h.record a ha), fun a ha => ?_, ?_, ht,
    ?_, hg.nodup h.pagesNodup, ?_, ?_, h.pending⟩
  · have ha' : a ∈ m.vm.list := h.mem.mpr (Or.inr ha)
    refine (hsame a).complete (h.complete a ha) fun v hv => he v fun hc => ?_
    have heq := h.covers_unique ha' hmem ((h.complete a ha).covers (h.record a ha') hv) hc
    exact hnd.1.2 (heq ▸ ha)
  · intro v h1 h2 hA hB
    show entry t v = 0
    rw [he v (hB va List.mem_cons_self)]
    exact h.unmapped v h1 h2 hA hB
  · show heap.livePages.Perm _
    rw [List.append_assoc]
    exact hg.pages.trans (h.pages.append_left N)
  · show heap.liveObjs.Perm _
    rw [hg.liveObjs]
    exact h.objs
  · show heap.liveObjs.Nodup
    rw [hg.liveObjs]
    exact h.objsNodup

/-- The pages that the loop over `alloc_page` has got belong to the area. -/
theorem filled_core {ok : Bool} {heap : Heap} {s : VmStruct}
    (h : Core m T A (va :: B) P (objsOf m va ++ O)) (hr : Ready m va area n)
    (hB : ∀ b ∈ B, b ∈ O ∧ m.vmOf b ∈ O)
    (heq : fillArray n 0 m.heap (structOf m va) = some (heap, s, ok)) :
    Core ({ m with heap := heap }.setStruct area s) T A (va :: B) (dataPages s ++ P)
      (slabArray s ++ ([va, area] ++ O)) ∧
    (∀ a ∈ m.vm.list, a ≠ va → SameArea m ({ m with heap := heap }.setStruct area s) a) ∧
    structOf ({ m with heap := heap }.setStruct area s) va = s ∧
    (∀ i < s.nrPages, Managed (s.page i)) ∧
    (s.size = 4096 * (n + 1) ∧ s.flags &&& VM_NO_GUARD = 0 ∧ s.pages = (structOf m va).pages) ∧
    s.addr = m.vm.vaStart va ∧ (ok = true → s.nrPages = n) := by
  obtain ⟨⟨hf1, hf2, hf3, hf4⟩, -, hnr, ⟨k, -, hk1, hk2, hman, hperm⟩, hnd, ho⟩ :=
    fillArray_spec heq h.pagesNodup
  have hmem : va ∈ m.vm.list := h.mem.mpr (Or.inl List.mem_cons_self)
  have hsn : s.nrPages = k := by
    rcases ok with _ | _
    · rw [hk2 rfl, Nat.zero_add]
    · rw [hnr rfl, hr.nrPages, hk1 rfl]
  have hobj : objsOf m va ++ O = slabArray s ++ ([va, area] ++ O) := by
    unfold objsOf slabArray
    rw [hr.vmOf, hf4, List.append_assoc]
  have haddr : s.addr = m.vm.vaStart va := hf1.trans (h.record va hmem).addr
  rw [hobj] at h
  obtain ⟨hcore, hsame, hself⟩ := Underway.setStruct (m := m) ⟨hr.vmOf, hB⟩ h haddr
  have hdata : dataPages s = (List.range' 0 k).map s.page := by
    unfold dataPages
    rw [hsn, List.range_eq_range']
  refine ⟨hcore.setHeap ?_ hnd ?_ ?_ hcore.pending,
    fun a ha hne => (hsame a ha hne).trans (sameArea_heap _ heap a), hself, fun i hi => ?_,
    ⟨hf2.trans hr.size, ?_, hf4⟩, haddr, fun hok => (hnr hok).trans hr.nrPages⟩
  · refine hperm.trans ((hcore.pages.append_left _).trans ?_)
    rw [hdata, List.append_assoc]
    exact List.perm_append_comm_assoc _ _ _
  · rw [ho]
    exact hcore.objs
  · rw [ho]
    exact hcore.objsNodup
  · exact hman i (Nat.zero_le _) (by omega)
  · rw [hf3]
    exact hr.guard

/-- What a complete area has got. -/
structure Built (m m' : Machine) (va n : ℕ) : Prop where
  vmOf : m'.vmOf va = m.vmOf va
  vaStart : m'.vm.vaStart va = m.vm.vaStart va
  nrPages : (structOf m' va).nrPages = n
  pages : (structOf m' va).pages = (structOf m va).pages

/-- `map_vm_area` of an area under way, and then its completion or its release. -/
theorem mapped_result {r : ℤ} {s : VmStruct} (h : Core m T A (va :: B) (pagesOf m va ++ P)
      (objsOf m va ++ O)) (hr : Ready m va area n) (hn : 0 < n)
    (hB : ∀ b ∈ B, b ∈ O ∧ m.vmOf b ∈ O)
    (hman : ∀ i < n, Managed ((structOf m va).page i)) (hs : structOf m va = s) {m₁ : Machine}
    (heq : mapVmArea fuel m s PAGE_KERNEL s.page = some (m₁, r)) :
    ∃ N, (∀ a, SameArea m m₁ a) ∧ SameEntries m m₁ va ∧
      Core m₁ (N ++ T) A (va :: B) (pagesOf m va ++ P) (objsOf m va ++ O) ∧
      (r = 0 → Core m₁ (N ++ T) (va :: A) B P O) := by
  have hmem : va ∈ m.vm.list := h.mem.mpr (Or.inl List.mem_cons_self)
  obtain ⟨u, w, hu, hw, hu1, huw, hw1⟩ := h.span hmem
  have hrec := h.record va hmem
  have hwn : w = u + n + 1 := by
    have := hr.stop
    omega
  have hgs : getVmAreaSize s = 4096 * n := by
    unfold getVmAreaSize
    rw [← hs, if_pos hr.guard, hr.size]
    show 4096 * (n + 1) - 4096 = _
    omega
  have hstop : addW 32 s.addr (getVmAreaSize s) = 4096 * (u + n) := by
    rw [hgs, ← hs, hrec.addr, hu]
    unfold addW
    omega
  unfold mapVmArea at heq
  rw [hstop, ← hs, hrec.addr, hu] at heq
  obtain ⟨⟨t, err⟩, hwalk, hres⟩ := Option.bind_eq_some_iff.mp heq
  obtain ⟨rfl, hr0⟩ := Prod.mk.inj (Option.some.inj hres)
  have hT : ∀ f ∈ T, f ∈ m.heap.livePages := fun f hf =>
    h.pages.symm.subset (List.mem_append_left _ hf)
  obtain ⟨hok, hfail⟩ := vmapPageRange_spec h.tables hT (by omega) (by omega) hwalk
  -- in both cases the walk has changed entries of this area only
  have hboth : ∃ N, TablesOk t.tables (N ++ T) ∧ Grown m.heap t.heap N ∧
      ∀ v, ¬ Covers m.vm va (4096 * v) → entry t.tables v = entry m.tables v := by
    obtain ⟨x, hx, hm⟩ : Stopped PAGE_KERNEL (structOf m va).page m.tables m.heap T u (u + n) t := by
      rcases lt_or_ge err 0 with hlt | hge
      · exact hfail hlt
      · exact ⟨u + n, le_rfl, hok hge⟩
    obtain ⟨N, hN, hg⟩ := hm.tables
    refine ⟨N, hN, hg, fun v hv => ?_⟩
    rw [hm.entry, if_neg]
    intro hin
    refine hv ?_
    unfold Covers
    omega
  obtain ⟨N, hN, hg, hent⟩ := hboth
  have hcore := setEntries_core h hN hg hent
  refine ⟨N, fun a => ⟨rfl, rfl, rfl, rfl, rfl⟩, hent, hcore, fun h0 => ?_⟩
  have hmap : Mapped PAGE_KERNEL (structOf m va).page m.tables m.heap T u (u + n) t :=
    hok (by split_ifs at hr0 <;> omega)
  have hnr : (structOf m va).nrPages = n := hr.nrPages
  have hdiv : m.vm.vaStart va / 4096 = u := by omega
  refine Core.seal hcore ⟨?_, ?_, fun i hi => ?_⟩ (fun v hv hnm => ?_) hB
  · show ∀ i < (structOf m va).nrPages, _
    rw [hnr]
    exact hman
  · show m.vm.vaEnd va = m.vm.vaStart va + 4096 * ((structOf m va).nrPages + 1)
    rw [hnr]
    exact hr.stop
  · change i < (structOf m va).nrPages at hi
    show entry t.tables (m.vm.vaStart va / 4096 + i) = mkPte ((structOf m va).page i) PAGE_KERNEL
    rw [hdiv, hmap.entry, if_pos (by omega), Nat.add_sub_cancel_left]
  · change Covers m.vm va (4096 * v) at hv
    show entry t.tables v = 0
    rw [hmap.entry, if_neg, hr.empty v hv]
    intro hin
    refine hnm ⟨v - u, ?_, ?_⟩
    · show v - u < (structOf m va).nrPages
      omega
    · show v = m.vm.vaStart va / 4096 + (v - u)
      omega

/-- **`__vmalloc_area_node`** from the loop over the pages on: the area is complete, or it is gone. -/
theorem vmallocAreaPages_spec {addr : ℕ} (h : Core m T A (va :: B) P (objsOf m va ++ O))
    (hr : Ready m va area n) (hn : 0 < n) (hB : ∀ b ∈ B, b ∈ O ∧ m.vmOf b ∈ O)
    (heq : vmallocAreaPages fuel m area = some (m', addr)) :
    ∃ N, FrameBut m m' va ∧ (addr = 0 ∧ Core m' (N ++ T) A B P O ∨
      addr = m.vm.vaStart va ∧ Core m' (N ++ T) (va :: A) B P O ∧ Built m m' va n) := by
  have hmem : va ∈ m.vm.list := h.mem.mpr (Or.inl List.mem_cons_self)
  have hst : m.vmStruct area = structOf m va := by
    unfold structOf
    rw [hr.vmOf]
  unfold vmallocAreaPages at heq
  rw [hst, hr.nrPages] at heq
  obtain ⟨⟨heap, s, ok⟩, hfill, heq⟩ := Option.bind_eq_some_iff.mp heq
  obtain ⟨hcore, hsame, hself, hman, ⟨hsize, hguard, hpages⟩, haddr, hnr⟩ :=
    filled_core h hr hB hfill
  dsimp only at heq
  set m₁ := { m with heap := heap }.setStruct area s with hm₁
  have hvm : m₁.vm = m.vm := rfl
  have hvmOf : m₁.vmOf = m.vmOf := rfl
  have hobj : objsOf m₁ va ++ O = slabArray s ++ ([va, area] ++ O) := by
    unfold objsOf
    rw [hself, hvmOf, hr.vmOf, List.append_assoc]
  have hcore₁ : Core m₁ T A (va :: B) (pagesOf m₁ va ++ P) (objsOf m₁ va ++ O) := by
    rw [hobj]
    unfold pagesOf
    rw [hself]
    exact hcore
  have hent₁ : SameEntries m m₁ va := fun _ _ => rfl
  have hman₁ : ∀ i < (structOf m₁ va).nrPages, Managed ((structOf m₁ va).page i) := by
    rw [hself]
    exact hman
  rw [haddr, ← hvm] at heq
  rcases ok with _ | _
  · -- not enough pages
    rw [if_neg (by decide)] at heq
    obtain ⟨m₂, hfree, hres⟩ := Option.map_eq_some_iff.mp heq
    obtain ⟨rfl, rfl⟩ := Prod.mk.inj hres
    obtain ⟨hcore₂, hsame₂, -, hent₂⟩ := vfree_spec hcore₁ hB hman₁ hfree
    exact ⟨[], ⟨fun a ha hne => (hsame a ha hne).trans (hsame₂ a hne),
      fun v hv => (hent₂ v hv).trans (hent₁ v hv)⟩, Or.inl ⟨rfl, hcore₂⟩⟩
  · rw [if_pos rfl] at heq
    obtain ⟨⟨m₂, err⟩, hmap, heq⟩ := Option.bind_eq_some_iff.mp heq
    have hready : Ready m₁ va area n :=
      ⟨hr.vmOf, hr.stop, by rw [hself]; exact hsize, by rw [hself]; exact hguard, hr.empty,
        by rw [hself]; exact hnr rfl⟩
    obtain ⟨N, hsame₂, hent₂, hcore₂, hdone⟩ := mapped_result hcore₁ hready hn hB
      (by rw [← hready.nrPages]; exact hman₁) hself hmap
    have hfr : FrameBut m m₂ va := ⟨fun a ha hne => (hsame a ha hne).trans (hsame₂ a),
      fun v hv => (hent₂ v hv).trans (hent₁ v hv)⟩
    dsimp only at heq
    by_cases he : err = 0
    · rw [if_neg (not_not.mpr he)] at heq
      obtain ⟨rfl, rfl⟩ := Prod.mk.inj (Option.some.inj heq)
      refine ⟨N, hfr, Or.inr ⟨rfl, hdone he, (hsame₂ va).vmOf, (hsame₂ va).vaStart, ?_, ?_⟩⟩
      · rw [(hsame₂ va).struct, hself]
        exact hnr rfl
      · rw [(hsame₂ va).struct, hself, hpages]
    · -- an error on the way: the area is released with what has been mapped
      rw [if_pos he] at heq
      obtain ⟨m₃, hfree, hres⟩ := Option.map_eq_some_iff.mp heq
      obtain ⟨rfl, rfl⟩ := Prod.mk.inj hres
      have hB₂ : ∀ b ∈ B, b ∈ O ∧ m₂.vmOf b ∈ O := fun b hb => by
        rw [(hsame₂ b).vmOf]
        exact hB b hb
      rw [← (hsame₂ va).vaStart] at hfree
      rw [← (hsame₂ va).pagesOf, ← (hsame₂ va).objsOf] at hcore₂
      obtain ⟨hcore₃, hsame₃, -, hent₃⟩ := vfree_spec hcore₂ hB₂
        (by rw [(hsame₂ va).struct]; exact hman₁) hfree
      refine ⟨N, ⟨fun a ha hne => (hfr.same a ha hne).trans (hsame₃ a hne), fun v hv => ?_⟩,
        Or.inl ⟨rfl, hcore₃⟩⟩
      rw [hent₃ v (fun hc => hv ((hsame₂ va).covers.mp hc)), hfr.entries v hv]

/-! ### `__vmalloc_node_range` -/

/-- What `__vmalloc_node_range` does: the areas `L` are new, and with success the first of them is the
one asked for. The others hold the arrays of pages that did not fit into a page. -/
def Outcome (m m' : Machine) (T A B P O : List ℕ) (size addr : ℕ) : Prop :=
  ∃ N L, Core m' (N ++ T) (L ++ A) B P O ∧ Frame m m' B ∧
    (addr = 0 → pageAlign size ≤ 4096 * 1024 → L = []) ∧ (addr ≠ 0 → ∃ va L', L = va :: L' ∧
    m'.vm.vaStart va = addr ∧ 4096 * (structOf m' va).nrPages = pageAlign size ∧
    (pageAlign size ≤ 4096 * 1024 → L' = [] ∧ ∃ x, (structOf m' va).pages = some (.slab x)) ∧
    (4096 * 1024 < pageAlign size → L' ≠ []))

theorem Frame.refl (m : Machine) (B : List ℕ) : Frame m m B :=
  ⟨fun a _ => SameArea.refl m a, fun _ _ _ _ => rfl⟩

/-- The array for `n` pages. -/
theorem allocArray_spec {f : Machine → ℕ → Option (Machine × ℕ)} {s : VmStruct} {p : Option Ptr}
    (hf : ∀ {m' addr}, f m (n * 4) = some (m', addr) →
      Outcome m m' T A (va :: B) P (va :: area :: O) (n * 4) addr)
    (h : Core m T A (va :: B) P (va :: area :: O))
    (heq : allocArray f m (n * 4) = some (m', p)) :
    ∃ N L, Core m' (N ++ T) (L ++ A) (va :: B) P
        (slabArray { s with pages := p } ++ ([va, area] ++ O)) ∧ Frame m m' (va :: B) ∧
      (n ≤ 1024 → L = []) ∧
      (p ≠ none → (n ≤ 1024 → ∃ x, p = some (.slab x)) ∧ (1024 < n → L ≠ [])) := by
  have hps : PAGE_SIZE = 4096 := rfl
  unfold allocArray at heq
  by_cases hbig : n * 4 > PAGE_SIZE
  · rw [if_pos hbig] at heq
    obtain ⟨⟨m₁, addr⟩, hm₁, hres⟩ := Option.map_eq_some_iff.mp heq
    obtain ⟨rfl, rfl⟩ := Prod.mk.inj hres
    obtain ⟨N, L, hcore, hframe, -, haddr⟩ := hf hm₁
    have hslab : slabArray { s with pages := if addr = 0 then none else some (.vmalloc addr) } =
        [] := by
      by_cases h0 : addr = 0
      · rw [if_pos h0]
        rfl
      · rw [if_neg h0]
        rfl
    dsimp only
    rw [hslab]
    refine ⟨N, L, hcore, hframe, fun hle => by omega, fun hp => ⟨fun hle => by omega, fun _ => ?_⟩⟩
    obtain ⟨va', L', rfl, -⟩ := haddr fun h0 => hp (if_pos h0)
    exact List.cons_ne_nil _ _
  · rw [if_neg hbig] at heq
    obtain ⟨⟨x, heap⟩, hk, hres⟩ := Option.map_eq_some_iff.mp heq
    obtain ⟨rfl, rfl⟩ := Prod.mk.inj hres
    obtain ⟨hcase, hl⟩ := kmalloc_cases hk
    have hframe : Frame m { m with heap := heap } (va :: B) :=
      ⟨fun a _ => sameArea_heap m heap a, fun _ _ _ _ => rfl⟩
    dsimp only
    rcases hcase with ⟨rfl, ho⟩ | ⟨hx, hfx, ho⟩
    · rw [if_pos rfl]
      refine ⟨[], [], h.setHeap ?_ ?_ ?_ ?_ h.pending, hframe, fun _ => rfl, fun hp => absurd rfl hp⟩
      · rw [hl]
        exact h.pages
      · rw [hl]
        exact h.pagesNodup
      · rw [ho]
        exact h.objs
      · rw [ho]
        exact h.objsNodup
    · rw [if_neg hx.1]
      refine ⟨[], [], h.setHeap ?_ ?_ ?_ ?_ fun b hb => ?_, hframe,
        fun _ => rfl, fun _ => ⟨fun _ => ⟨x, rfl⟩, fun hlt => by omega⟩⟩
      · rw [hl]
        exact h.pages
      · rw [hl]
        exact h.pagesNodup
      · rw [ho]
        exact h.objs.cons x
      · rw [ho]
        exact List.nodup_cons.mpr ⟨hfx, h.objsNodup⟩
      · exact (h.pending b hb).imp (List.mem_cons_of_mem x) (List.mem_cons_of_mem x)

/-- What the other areas see of a call that works on the area under way. -/
theorem FrameBut.frame (h : Core m T A (va :: B) P O) (hf : FrameBut m m' va) :
    (∀ a ∈ m.vm.list, a ≠ va → SameArea m m' a) ∧
      ∀ b ∈ B, ∀ v, Covers m.vm b (4096 * v) → entry m'.tables v = entry m.tables v := by
  refine ⟨hf.same, fun b hb v hv => hf.entries v fun hva => ?_⟩
  have hnd := h.nodup
  rw [List.cons_append, List.nodup_cons, List.mem_append, not_or] at hnd
  have hb' : b ∈ m.vm.list := h.mem.mpr (Or.inl (List.mem_cons_of_mem _ hb))
  have heq := h.covers_unique hb' (h.mem.mpr (Or.inl List.mem_cons_self)) hv hva
  exact hnd.1.1 (heq ▸ hb)

/-- There is no memory for the array: the area is released. -/
theorem noArray_spec {m₁ : Machine} (h : Core m T A (va :: B) P (va :: area :: O))
    (hB : ∀ b ∈ B, b ∈ O ∧ m.vmOf b ∈ O)
    (heq : removeVmArea fuel m (m.vm.vaStart va) = some m₁) :
    Core { m₁ with heap := kfree m₁.heap (some (.slab area)) } T A B P O ∧
      FrameBut m { m₁ with heap := kfree m₁.heap (some (.slab area)) } va := by
  obtain ⟨hcore, hsame, -, hent⟩ := removeVmArea_spec h (List.Perm.refl _)
    (fun b hb => (hB b hb).imp (List.mem_cons_of_mem area) (List.mem_cons_of_mem area)) heq
  have hnd := h.nodup
  rw [List.cons_append, List.nodup_cons, List.mem_append, not_or] at hnd
  refine ⟨hcore.setHeap hcore.pages hcore.pagesNodup ?_ (hcore.objsNodup.erase area) fun b hb => ?_,
    fun a _ hne => (hsame a hne).trans (sameArea_heap _ _ a), hent⟩
  · have := hcore.objs.erase area
    rwa [List.cons_append, List.erase_cons_head] at this
  · rw [(hsame b fun he => hnd.1.1 (he ▸ hb)).vmOf]
    exact hB b hb

/-- The area that has been started has got its array `p`, and other areas may have come up meanwhile. -/
structure Arrayed (m m' : Machine) (T A B P O : List ℕ) (va area n : ℕ) (p : Option Ptr)
    (L : List ℕ) : Prop where
  core : Core m' T (L ++ A) (va :: B) P (slabArray (structOf m' va) ++ ([va, area] ++ O))
  ready : Ready m' va area n
  others : ∀ b ∈ B, b ∈ O ∧ m'.vmOf b ∈ O
  same : ∀ a ∈ m.vm.list, a ∈ m'.vm.list ∧ (a ≠ va → SameArea m m' a)
  entries : ∀ b ∈ B, ∀ v, Covers m.vm b (4096 * v) → entry m'.tables v = entry m.tables v
  vmOf : m'.vmOf va = m.vmOf va
  vaStart : m'.vm.vaStart va = m.vm.vaStart va
  pages : (structOf m' va).pages = p
  small : n ≤ 1024 → L = []
  got : p ≠ none → (n ≤ 1024 → ∃ x, p = some (.slab x)) ∧ (1024 < n → L ≠ [])

/-- The first part of `__vmalloc_area_node`. -/
theorem arrayed_spec {f : Machine → ℕ → Option (Machine × ℕ)} {m₀ m₂ : Machine} {p : Option Ptr}
    (hf : ∀ {m m' addr}, Core m T A (va :: B) P (va :: area :: O) → f m (n * 4) = some (m', addr) →
      Outcome m m' T A (va :: B) P (va :: area :: O) (n * 4) addr)
    (h : Core m T A (va :: B) P (va :: area :: O)) (hst : Started m₀ m va area n)
    (hB : ∀ b ∈ B, b ∈ O ∧ m.vmOf b ∈ O)
    (heq : allocArray f (m.setStruct area { m.vmStruct area with nrPages := n }) (n * 4) =
      some (m₂, p)) :
    ∃ N L, Arrayed m (m₂.setStruct area { m₂.vmStruct area with pages := p }) (N ++ T) A B P O va
      area n p L := by
  have hmem : va ∈ m.vm.list := h.mem.mpr (Or.inl List.mem_cons_self)
  have hself : structOf m va = m.vmStruct area := by
    unfold structOf
    rw [hst.vmOf]
  set s₁ : VmStruct := { m.vmStruct area with nrPages := n } with hs₁
  have haddr₁ : s₁.addr = m.vm.vaStart va := by
    rw [← (h.record va hmem).addr, hself]
  obtain ⟨hcore₁, hsame₁, hself₁⟩ :=
    Underway.setStruct (m := m) (X := []) (s := s₁) ⟨hst.vmOf, hB⟩ h haddr₁
  obtain ⟨N, L, hcore₂, hframe₂, hL, hp⟩ := allocArray_spec (s := s₁) (hf hcore₁) hcore₁ heq
  have hva₂ := hframe₂.same va hmem
  have hstruct₂ : m₂.vmStruct area = s₁ := by
    rw [← hself₁, ← hva₂.struct]
    unfold structOf
    rw [hva₂.vmOf]
    show _ = m₂.vmStruct (m.vmOf va)
    rw [hst.vmOf]
  have hvmOf₂ : m₂.vmOf va = area := hva₂.vmOf.trans hst.vmOf
  have hB₂ : ∀ b ∈ B, b ∈ O ∧ m₂.vmOf b ∈ O := fun b hb => by
    rw [(hframe₂.same b (h.mem.mpr (Or.inl (List.mem_cons_of_mem _ hb)))).vmOf]
    exact hB b hb
  have haddr₂ : ({ s₁ with pages := p } : VmStruct).addr = m₂.vm.vaStart va :=
    haddr₁.trans hva₂.vaStart.symm
  obtain ⟨hcore₃, hsame₃, hself₃⟩ :=
    Underway.setStruct (m := m₂) (s := { s₁ with pages := p }) ⟨hvmOf₂, hB₂⟩ hcore₂ haddr₂
  rw [hstruct₂]
  set m₃ := m₂.setStruct area { s₁ with pages := p } with hm₃
  have hlist : ∀ a ∈ m.vm.list, a ∈ m₂.vm.list := fun a ha => by
    rw [hcore₂.mem, List.mem_append]
    exact (h.mem.mp ha).imp id Or.inr
  have hent : ∀ b ∈ va :: B, ∀ v, Covers m.vm b (4096 * v) →
    entry m₃.tables v = entry m.tables v := fun b hb v hv => hframe₂.entries b hb v hv
  refine ⟨N, L, by rw [hself₃]; exact hcore₃, ?_, hB₂, fun a ha => ⟨hlist a ha, fun hne => ?_⟩,
    fun b hb v hv => hent b (List.mem_cons_of_mem va hb) v hv, hva₂.vmOf, hva₂.vaStart, by rw [hself₃],
    hL, hp⟩
  · refine ⟨hvmOf₂, ?_, by rw [hself₃]; exact hst.size, by rw [hself₃]; exact hst.guard,
      fun v hv => ?_, by rw [hself₃]⟩
    · show m₂.vm.vaEnd va = m₂.vm.vaStart va + _
      rw [hva₂.vaEnd, hva₂.vaStart]
      exact hst.stop
    · have hv' : Covers m.vm va (4096 * v) := hva₂.covers.mp hv
      rw [hent va List.mem_cons_self v hv']
      exact hst.empty v hv'
  · exact ((hsame₁ a ha hne).trans (hframe₂.same a ha)).trans (hsame₃ a (hlist a ha) hne)

/-- The number of pages, and the size of their array. -/
theorem Started.nrPages {m₀ : Machine} (hst : Started m₀ m va area n) (hn' : n ≤ 4096) :
    getVmAreaSize (m.vmStruct area) / 2 ^ PAGE_SHIFT = n ∧ n * 4 % 2 ^ 32 = n * 4 := by
  refine ⟨?_, Nat.mod_eq_of_lt (by omega)⟩
  unfold getVmAreaSize
  rw [if_pos hst.guard, hst.size]
  show (4096 * (n + 1) - 4096) / 4096 = n
  omega

/-- What `__vmalloc_area_node` makes of the area that has been started. -/
structure Finished (m m' : Machine) (T A B P O : List ℕ) (va n : ℕ) (L : List ℕ) : Prop where
  core : Core m' T (va :: (L ++ A)) B P O
  vmOf : m'.vmOf va = m.vmOf va
  vaStart : m'.vm.vaStart va = m.vm.vaStart va
  nrPages : (structOf m' va).nrPages = n
  small : n ≤ 1024 → L = [] ∧ ∃ x, (structOf m' va).pages = some (.slab x)
  large : 1024 < n → L ≠ []

/-- **`__vmalloc_area_node`**: the area is complete, or it is gone. -/
theorem vmallocAreaNode_spec {f : Machine → ℕ → Option (Machine × ℕ)} {m₀ : Machine} {addr : ℕ}
    (hf : ∀ {m m' addr}, Core m T A (va :: B) P (va :: area :: O) → f m (n * 4) = some (m', addr) →
      Outcome m m' T A (va :: B) P (va :: area :: O) (n * 4) addr)
    (h : Core m T A (va :: B) P (va :: area :: O)) (hst : Started m₀ m va area n) (hn : 0 < n)
    (hn' : n ≤ 4096) (hB : ∀ b ∈ B, b ∈ O ∧ m.vmOf b ∈ O)
    (heq : vmallocAreaNode f fuel m area = some (m', addr)) :
    ∃ N L, ((∀ a ∈ m.vm.list, a ≠ va → SameArea m m' a) ∧
        ∀ b ∈ B, ∀ v, Covers m.vm b (4096 * v) → entry m'.tables v = entry m.tables v) ∧
      (n ≤ 1024 → L = []) ∧ (addr = 0 ∧ Core m' (N ++ T) (L ++ A) B P O ∨
        addr = m.vm.vaStart va ∧ Finished m m' (N ++ T) A B P O va n L) := by
  have hmem : va ∈ m.vm.list := h.mem.mpr (Or.inl List.mem_cons_self)
  obtain ⟨hnr, hmod⟩ := hst.nrPages hn'
  unfold vmallocAreaNode at heq
  rw [hnr] at heq
  dsimp only at heq
  rw [hmod] at heq
  obtain ⟨⟨m₂, p⟩, hm₂, heq⟩ := Option.bind_eq_some_iff.mp heq
  obtain ⟨N, L, harr⟩ := arrayed_spec hf h hst hB hm₂
  dsimp only at heq
  set m₃ := m₂.setStruct area { m₂.vmStruct area with pages := p } with hm₃
  -- from here on only the area itself is touched
  have hrest : FrameBut m₃ m' va → (∀ a ∈ m.vm.list, a ≠ va → SameArea m m' a) ∧
      ∀ b ∈ B, ∀ v, Covers m.vm b (4096 * v) → entry m'.tables v = entry m.tables v := by
    intro hbut
    obtain ⟨h1, h2⟩ := hbut.frame harr.core
    refine ⟨fun a ha hne => ((harr.same a ha).2 hne).trans (h1 a (harr.same a ha).1 hne),
      fun b hb v hv => ?_⟩
    have hnd := h.nodup
    rw [List.cons_append, List.nodup_cons] at hnd
    have hb' := harr.same b (h.mem.mpr (Or.inl (List.mem_cons_of_mem va hb)))
    have hne : b ≠ va := fun he => hnd.1 (List.mem_append_left _ (he ▸ hb))
    rw [h2 b hb v ((hb'.2 hne).covers.mpr hv), harr.entries b hb v hv]
  by_cases hnone : p = none
  · rw [if_pos hnone] at heq
    obtain ⟨m₄, hm₄, hres⟩ := Option.bind_eq_some_iff.mp heq
    obtain ⟨rfl, rfl⟩ := Prod.mk.inj (Option.some.inj hres)
    have hslab : slabArray (structOf m₃ va) = [] := by
      unfold slabArray
      rw [harr.pages, hnone]
    have hcore₃ := harr.core
    rw [hslab] at hcore₃
    have hstart : (m₃.vmStruct area).addr = m₃.vm.vaStart va := by
      rw [← (hcore₃.record va (harr.same va hmem).1).addr]
      unfold structOf
      rw [harr.ready.vmOf]
    rw [hstart] at hm₄
    obtain ⟨hcore₄, hbut⟩ := noArray_spec hcore₃ harr.others hm₄
    exact ⟨N, L, hrest hbut, harr.small, Or.inl ⟨rfl, hcore₄⟩⟩
  · rw [if_neg hnone] at heq
    obtain ⟨hsmall, hlarge⟩ := harr.got hnone
    have hobj : slabArray (structOf m₃ va) ++ ([va, area] ++ O) = objsOf m₃ va ++ O := by
      unfold objsOf
      rw [harr.ready.vmOf, List.append_assoc]
    have hcore₃ := harr.core
    rw [hobj] at hcore₃
    obtain ⟨N', hbut, hres⟩ := vmallocAreaPages_spec hcore₃ harr.ready hn harr.others heq
    refine ⟨N' ++ N, L, hrest hbut, harr.small, ?_⟩
    rw [List.append_assoc]
    refine hres.imp id ?_
    rintro ⟨rfl, hcore₄, hvmOf₄, hstart₄, hnr₄, hpages₄⟩
    rw [harr.pages] at hpages₄
    refine ⟨harr.vaStart, hcore₄, hvmOf₄.trans harr.vmOf, hstart₄.trans harr.vaStart, hnr₄,
      fun hle => ⟨harr.small hle, ?_⟩, hlarge⟩
    rw [hpages₄]
    exact hsmall hle

/-- Clearing the flag of a complete area. -/
theorem clearVmUninitializedFlag_core (h : Core m T (va :: A) B P O) :
    Core (clearVmUninitializedFlag m (m.vmOf va)) T (va :: A) B P O ∧
      (∀ a ∈ m.vm.list, a ≠ va → SameArea m (clearVmUninitializedFlag m (m.vmOf va)) a) ∧
      (structOf (clearVmUninitializedFlag m (m.vmOf va)) va).nrPages = (structOf m va).nrPages ∧
      (structOf (clearVmUninitializedFlag m (m.vmOf va)) va).pages = (structOf m va).pages := by
  have hmem : va ∈ m.vm.list := h.mem.mpr (Or.inr List.mem_cons_self)
  have hobj : objsOf m va ++ O = slabArray (structOf m va) ++ ([va, m.vmOf va] ++ O) :=
    List.append_assoc _ _ _
  have hun := h.unseal
  rw [hobj] at hun
  set s : VmStruct := { structOf m va with
    flags := (structOf m va).flags &&& notW 32 VM_UNINITIALIZED } with hs
  have hclear : clearVmUninitializedFlag m (m.vmOf va) = m.setStruct (m.vmOf va) s := rfl
  rw [hclear]
  obtain ⟨hcore, hsame, hself⟩ :=
    Underway.setStruct (m := m) (s := s) ⟨rfl, h.pending⟩ hun (h.record va hmem).addr
  have hcomplete := h.complete va List.mem_cons_self
  have hmaps : ∀ v, Maps (m.setStruct (m.vmOf va) s) va v ↔ Maps m va v := fun v => by
    unfold Maps
    rw [hself]
    exact Iff.rfl
  refine ⟨Core.seal (P := P) (O := O) ?_ ⟨?_, ?_, ?_⟩ ?_ h.pending, hsame, by rw [hself],
    by rw [hself]⟩
  · have hobj' : objsOf (m.setStruct (m.vmOf va) s) va ++ O =
        slabArray (structOf m va) ++ ([va, m.vmOf va] ++ O) := by
      unfold objsOf
      rw [hself, List.append_assoc]
      rfl
    have hpages : pagesOf (m.setStruct (m.vmOf va) s) va = pagesOf m va := by
      unfold pagesOf
      rw [hself]
      rfl
    rw [hobj', hpages]
    exact hcore
  · rw [hself]
    exact hcomplete.managed
  · rw [hself]
    exact hcomplete.stop
  · rw [hself]
    exact hcomplete.mapped
  · -- the guard page is not mapped
    intro v hv hnm
    have hv' : Covers m.vm va (4096 * v) := hv
    have hrange := h.areas.range va hmem
    refine h.unmapped v (hrange.1.trans hv'.1) (hv'.2.trans_le hrange.2.2) (fun a ha hm => ?_)
      fun b hb hc => ?_
    · by_cases hav : a = va
      · exact hnm ((hmaps v).mpr (hav ▸ hm))
      · have ha' : a ∈ m.vm.list := h.mem.mpr (Or.inr ha)
        exact hav (h.covers_unique ha' hmem ((h.complete a ha).covers (h.record a ha') hm) hv')
    · have hb' : b ∈ m.vm.list := h.mem.mpr (Or.inl hb)
      have hnd := h.nodup
      have heq := h.covers_unique hb' hmem hc hv'
      exact (List.nodup_append.mp hnd).2.2 b hb va List.mem_cons_self heq

/-- **`__vmalloc_node_range`**, to any depth. -/
theorem vmallocNodeRange_spec : ∀ {d : ℕ} {m m' : Machine} {A B O : List ℕ} {size addr : ℕ},
    Core m T A B P O → vmallocNodeRange fuel d m size = some (m', addr) →
      Outcome m m' T A B P O size addr := by
  intro d
  induction d with
  | zero => exact fun _ heq => by cases heq
  | succ d ih =>
    intro m m' A B O size addr h heq
    have hnone : ∀ {m₁ : Machine}, Core m₁ T A B P O → (∀ a ∈ m.vm.list, SameArea m m₁ a) →
        m₁.tables = m.tables → Outcome m m₁ T A B P O size 0 := fun hcore hsame htab =>
      ⟨[], [], hcore, ⟨hsame, fun _ _ _ _ => by rw [htab]⟩, fun _ _ => rfl, fun h0 => absurd rfl h0⟩
    obtain ⟨n, hn, hsize⟩ := exists_pageAlign size
    have htot : totalramPages = 4096 := rfl
    have hdiv : 4096 * n / 2 ^ PAGE_SHIFT = n := by
      unfold PAGE_SHIFT
      omega
    rw [vmallocNodeRange] at heq
    dsimp only at heq
    rw [hsize, hdiv] at heq
    by_cases hbad : 4096 * n = 0 ∨ n > totalramPages
    · rw [if_pos hbad] at heq
      obtain ⟨rfl, rfl⟩ := Prod.mk.inj (Option.some.inj heq)
      exact hnone h (fun a _ => SameArea.refl _ a) rfl
    · rw [if_neg hbad] at heq
      obtain ⟨⟨m₁, area⟩, hm₁, heq⟩ := Option.bind_eq_some_iff.mp heq
      obtain ⟨hfail, hok⟩ := getVmAreaNode_spec h (by omega) (by omega) hm₁
      dsimp only at heq
      by_cases harea : area = 0
      · rw [if_pos harea] at heq
        obtain ⟨rfl, rfl⟩ := Prod.mk.inj (Option.some.inj heq)
        obtain ⟨hcore, hsame, htab⟩ := hfail harea
        exact hnone hcore hsame htab
      · rw [if_neg harea] at heq
        obtain ⟨va, hcore₁, hsame₁, hst⟩ := hok harea
        obtain ⟨⟨m₂, addr₂⟩, hm₂, heq⟩ := Option.bind_eq_some_iff.mp heq
        have hB : ∀ b ∈ B, b ∈ O ∧ m₁.vmOf b ∈ O := fun b hb => by
          rw [(hsame₁ b (h.mem.mpr (Or.inl hb))).vmOf]
          exact h.pending b hb
        obtain ⟨N, L, ⟨hsame₂, hent₂⟩, hL, hres⟩ :=
          vmallocAreaNode_spec ih hcore₁ hst (by omega) (by omega) hB hm₂
        have hold : ∀ a ∈ m.vm.list, a ∈ m₁.vm.list ∧ a ≠ va := fun a ha =>
          ⟨hcore₁.mem.mpr ((h.mem.mp ha).imp (List.mem_cons_of_mem va) id),
            fun he => hst.fresh (he ▸ ha)⟩
        have hsame : ∀ a ∈ m.vm.list, SameArea m m₂ a := fun a ha =>
          (hsame₁ a ha).trans (hsame₂ a (hold a ha).1 (hold a ha).2)
        have hent : ∀ b ∈ B, ∀ v, Covers m.vm b (4096 * v) →
            entry m₂.tables v = entry m.tables v := by
          intro b hb v hv
          have hcov := (hsame₁ b (h.mem.mpr (Or.inl hb))).covers.mpr hv
          rw [hent₂ b hb v hcov, hst.tables]
        dsimp only at heq
        rcases hres with ⟨rfl, hcore⟩ | ⟨rfl, hfin⟩
        · rw [if_pos rfl] at heq
          obtain ⟨rfl, rfl⟩ := Prod.mk.inj (Option.some.inj heq)
          refine ⟨N, L, hcore, ⟨hsame, hent⟩, fun _ hle => hL ?_, fun h0 => absurd rfl h0⟩
          rw [hsize] at hle
          omega
        · have hstart : m₁.vm.vaStart va ≠ 0 := by
            obtain ⟨u, w, hu, -, hu1, -⟩ := hcore₁.span (hcore₁.mem.mpr (Or.inl List.mem_cons_self))
            omega
          rw [if_neg hstart] at heq
          obtain ⟨rfl, rfl⟩ := Prod.mk.inj (Option.some.inj heq)
          have harea₂ : m₂.vmOf va = area := hfin.vmOf.trans hst.vmOf
          obtain ⟨hcore, hsame₃, hnr, hpages⟩ := clearVmUninitializedFlag_core hfin.core
          rw [harea₂] at hcore hsame₃ hnr hpages
          have hmem₂ : ∀ a ∈ m.vm.list, a ∈ m₂.vm.list := fun a ha => by
            rw [hfin.core.mem, List.mem_cons, List.mem_append]
            rcases h.mem.mp ha with ha | ha
            · exact Or.inl ha
            · exact Or.inr (Or.inr (Or.inr ha))
          refine ⟨N, va :: L, hcore, ⟨fun a ha => (hsame a ha).trans
            (hsame₃ a (hmem₂ a ha) (hold a ha).2), hent⟩, fun h0 => absurd h0 hstart, fun _ => ⟨va, L, rfl, hfin.vaStart, ?_,
            fun hle => ?_, fun hlt => ?_⟩⟩
          · rw [hnr, hfin.nrPages, hsize]
          · rw [hsize] at hle
            rw [hpages]
            exact hfin.small (by omega)
          · rw [hsize] at hlt
            exact hfin.large (by omega)

end HardStack.Vmalloc.Request
