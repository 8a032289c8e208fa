import HardStack.Vmalloc.Entries
import HardStack.Vmalloc.Run

/-! # What the machine owes for its areas

`Core m T A B P O`: the areas `A` are complete, with a `struct vm_struct`, their pages and the entries
that map them; the areas `B` are under way. The frames in use are the page tables `T`, the pages of the
complete areas and the pages `P` besides; the objects in use are those of the complete areas and the
objects `O` besides. Between two calls `B`, `P` and `O` are empty. A call takes one area out of the
complete ones (`Core.unseal`) or adds one (`Core.seal`); what it does in between leaves the records of
all other areas as they are (`SameArea`). -/

namespace HardStack.Vmalloc.Account

open HardStack.Lib.Word HardStack.Rbtree.Layout HardStack.Vmalloc.Model HardStack.Vmalloc.Areas
open HardStack.Vmalloc.Run HardStack.Vmalloc.Paging HardStack.Vmalloc.Entries

variable {m m' : Machine} {T A B P O : List ℕ} {a va n fuel : ℕ}

/-- The `struct vm_struct` of an area. -/
def structOf (m : Machine) (a : ℕ) : VmStruct := m.vmStruct (m.vmOf a)

def dataPages (s : VmStruct) : List ℕ := (List.range s.nrPages).map s.page

/-- The array of pages, if it came from the slab allocator. -/
def slabArray (s : VmStruct) : List ℕ :=
  match s.pages with
  | some (.slab x) => [x]
  | _ => []

def pagesOf (m : Machine) (a : ℕ) : List ℕ := dataPages (structOf m a)

def objsOf (m : Machine) (a : ℕ) : List ℕ := slabArray (structOf m a) ++ [a, m.vmOf a]

/-- The fields of an area and of its `struct vm_struct` fit together. -/
structure Record (m : Machine) (a : ℕ) : Prop where
  flags : m.vm.flags a &&& VM_VM_AREA ≠ 0
  vmOf : m.vmOf a ≠ 0
  start : 4096 ∣ m.vm.vaStart a
  stop : 4096 ∣ m.vm.vaEnd a
  addr : (structOf m a).addr = m.vm.vaStart a

/-- The area is mapped to its pages, up to the guard page. -/
structure Complete (m : Machine) (a : ℕ) : Prop where
  managed : ∀ i < (structOf m a).nrPages, Managed ((structOf m a).page i)
  stop : m.vm.vaEnd a = m.vm.vaStart a + 4096 * ((structOf m a).nrPages + 1)
  mapped : ∀ i < (structOf m a).nrPages,
    entry m.tables (m.vm.vaStart a / 4096 + i) = mkPte ((structOf m a).page i) PAGE_KERNEL

/-- The page is one of those that the area is mapped to. -/
def Maps (m : Machine) (a v : ℕ) : Prop :=
  ∃ i < (structOf m a).nrPages, v = m.vm.vaStart a / 4096 + i

/-- **The account of the machine.** -/
structure Core (m : Machine) (T A B P O : List ℕ) : Prop where
  areas : Inv VMALLOC_START VMALLOC_END m.vm
  listed : m.vm.list.Perm (B ++ A)
  record : ∀ a ∈ m.vm.list, Record m a
  complete : ∀ a ∈ A, Complete m a
  unmapped : ∀ v, VMALLOC_START ≤ 4096 * v → 4096 * v < VMALLOC_END → (∀ a ∈ A, ¬ Maps m a v) →
    (∀ b ∈ B, ¬ Covers m.vm b (4096 * v)) → entry m.tables v = 0
  tables : TablesOk m.tables T
  pages : m.heap.livePages.Perm (T ++ (P ++ A.flatMap (pagesOf m)))
  pagesNodup : m.heap.livePages.Nodup
  objs : m.heap.liveObjs.Perm (O ++ A.flatMap (objsOf m))
  objsNodup : m.heap.liveObjs.Nodup
  pending : ∀ b ∈ B, b ∈ O ∧ m.vmOf b ∈ O

/-- Outside the range of an area the entries are the same on both machines. -/
def SameEntries (m m' : Machine) (va : ℕ) : Prop :=
  ∀ v, ¬ Covers m.vm va (4096 * v) → entry m'.tables v = entry m.tables v

/-- The records of the area are the same on both machines. -/
structure SameArea (m m' : Machine) (a : ℕ) : Prop where
  vaStart : m'.vm.vaStart a = m.vm.vaStart a
  vaEnd : m'.vm.vaEnd a = m.vm.vaEnd a
  flags : m'.vm.flags a = m.vm.flags a
  vmOf : m'.vmOf a = m.vmOf a
  struct : structOf m' a = structOf m a

theorem vmalloc_range : VMALLOC_START = 4096 * 0x81800 ∧ VMALLOC_END = 4096 * 0xff800 := by decide

theorem SameArea.refl (m : Machine) (a : ℕ) : SameArea m m a := ⟨rfl, rfl, rfl, rfl, rfl⟩

theorem SameArea.trans {m₁ m₂ m₃ : Machine} (h : SameArea m₁ m₂ a) (h' : SameArea m₂ m₃ a) :
    SameArea m₁ m₃ a :=
  ⟨h'.vaStart.trans h.vaStart, h'.vaEnd.trans h.vaEnd, h'.flags.trans h.flags,
    h'.vmOf.trans h.vmOf, h'.struct.trans h.struct⟩

theorem SameArea.record (h : SameArea m m' a) (hr : Record m a) : Record m' a := by
  obtain ⟨h1, h2, h3, h4, h5⟩ := h
  obtain ⟨r1, r2, r3, r4, r5⟩ := hr
  exact ⟨by rwa [h3], by rwa [h4], by rwa [h1], by rwa [h2], by rwa [h5, h1]⟩

theorem SameArea.maps (h : SameArea m m' a) {v : ℕ} : Maps m' a v ↔ Maps m a v := by
  unfold Maps
  rw [h.struct, h.vaStart]

theorem SameArea.covers (h : SameArea m m' a) {v : ℕ} :
    Covers m'.vm a v ↔ Covers m.vm a v := by
  unfold Covers
  rw [h.vaStart, h.vaEnd]

theorem SameArea.complete (h : SameArea m m' a) (hc : Complete m a)
    (he : ∀ v, Maps m a v → entry m'.tables v = entry m.tables v) : Complete m' a := by
  refine ⟨by rw [h.struct]; exact hc.managed,
    by rw [h.vaEnd, h.vaStart, h.struct]; exact hc.stop, fun i hi => ?_⟩
  rw [h.struct] at hi ⊢
  rw [h.vaStart, he _ ⟨i, hi, rfl⟩, hc.mapped i hi]

theorem SameArea.pagesOf (h : SameArea m m' a) : pagesOf m' a = pagesOf m a := by
  unfold Account.pagesOf
  rw [h.struct]

theorem SameArea.objsOf (h : SameArea m m' a) : objsOf m' a = objsOf m a := by
  unfold Account.objsOf
  rw [h.struct, h.vmOf]

/-! ### Addresses of pages -/

theorem Complete.covers (hc : Complete m a) (hr : Record m a) {v : ℕ} (h : Maps m a v) :
    Covers m.vm a (4096 * v) := by
  obtain ⟨i, hi, rfl⟩ := h
  obtain ⟨k, hk⟩ := hr.start
  have := hc.stop
  unfold Covers
  rw [hk] at this ⊢
  omega

theorem Core.mem (h : Core m T A B P O) : a ∈ m.vm.list ↔ a ∈ B ∨ a ∈ A := by
  rw [h.listed.mem_iff, List.mem_append]

theorem Core.nodup (h : Core m T A B P O) : (B ++ A).Nodup := by
  exact h.listed.nodup_iff.mp h.areas.nodes.1

/-- Two different areas do not hold one address. -/
theorem Core.covers_unique (h : Core m T A B P O) {b x : ℕ} (ha : a ∈ m.vm.list)
    (hb : b ∈ m.vm.list) (hca : Covers m.vm a x) (hcb : Covers m.vm b x) : a = b := by
  by_contra hne
  unfold Covers at hca hcb
  rcases h.areas.apart_or ha hb hne with hx | hx <;> unfold Apart at hx <;> omega

/-- The objects of all areas are in use. -/
theorem Core.obj_live (h : Core m T A B P O) (ha : a ∈ m.vm.list) :
    a ∈ m.heap.liveObjs ∧ m.vmOf a ∈ m.heap.liveObjs := by
  rcases h.mem.mp ha with hb | ha
  · obtain ⟨h1, h2⟩ := h.pending a hb
    exact ⟨h.objs.symm.subset (List.mem_append_left _ h1),
      h.objs.symm.subset (List.mem_append_left _ h2)⟩
  · have hmem : ∀ x ∈ objsOf m a, x ∈ m.heap.liveObjs := fun x hx =>
      h.objs.symm.subset (List.mem_append_right _ (List.mem_flatMap.mpr ⟨a, ha, hx⟩))
    exact ⟨hmem a (by simp [objsOf]), hmem _ (by simp [objsOf])⟩

theorem Core.noWrap (h : Core m T A B P O) : NoWrap 32 m.vm (2 ^ 0) VMALLOC_START := by
  obtain ⟨hs, he⟩ := vmalloc_range
  refine ⟨by omega, fun a ha => ?_⟩
  have := h.areas.range a ha
  omega

/-- The pages of the area, in numbers. -/
theorem Core.span (h : Core m T A B P O) (ha : a ∈ m.vm.list) : ∃ u w, m.vm.vaStart a = 4096 * u ∧
    m.vm.vaEnd a = 4096 * w ∧ 0x81800 ≤ u ∧ u < w ∧ w ≤ 0xff800 := by
  obtain ⟨hs, he⟩ := vmalloc_range
  obtain ⟨u, hu⟩ := (h.record a ha).start
  obtain ⟨w, hw⟩ := (h.record a ha).stop
  have hr := h.areas.range a ha
  rw [hu, hw] at hr
  exact ⟨u, w, hu, hw, by omega, by omega, by omega⟩

theorem Core.find (h : Core m T A B P O) (ha : a ∈ m.vm.list) {r : ℕ}
    (hr : findVmapArea fuel m.vm (m.vm.vaStart a) = some r) : r = a := by
  have hc : Covers m.vm a (m.vm.vaStart a) := ⟨le_rfl, (h.areas.range a ha).2.1⟩
  rcases findVmapArea_result h.areas hr with ⟨-, hall⟩ | ⟨-, hall⟩
  · exact ((hall a ha).mp hc).symm
  · exact absurd hc (hall a ha)

theorem sameArea_heap (m : Machine) (heap : Heap) (a : ℕ) : SameArea m { m with heap := heap } a :=
  ⟨rfl, rfl, rfl, rfl, rfl⟩

/-- Only the allocators change. -/
theorem Core.setHeap {heap : Heap} {P' O' : List ℕ} (h : Core m T A B P O)
    (hpages : heap.livePages.Perm (T ++ (P' ++ A.flatMap (pagesOf m)))) (hpn : heap.livePages.Nodup)
    (hobjs : heap.liveObjs.Perm (O' ++ A.flatMap (objsOf m))) (hon : heap.liveObjs.Nodup)
    (hB : ∀ b ∈ B, b ∈ O' ∧ m.vmOf b ∈ O') : Core { m with heap := heap } T A B P' O' :=
  ⟨h.areas, h.listed, fun a ha => (sameArea_heap m heap a).record (h.record a ha),
    fun a ha => (sameArea_heap m heap a).complete (h.complete a ha) fun _ _ => rfl, h.unmapped,
    h.tables, hpages, hpn, hobjs, hon, hB⟩

/-- Only what no area uses changes. -/
theorem Core.congr (h : Core m T A B P O) (hvm : m'.vm = m.vm) (hvmOf : m'.vmOf = m.vmOf)
    (hs : ∀ a ∈ m.vm.list, structOf m' a = structOf m a) (htab : m'.tables = m.tables)
    (hlp : m'.heap.livePages = m.heap.livePages) (hlo : m'.heap.liveObjs = m.heap.liveObjs) :
    Core m' T A B P O ∧ ∀ a ∈ m.vm.list, SameArea m m' a := by
  have hsame : ∀ a ∈ m.vm.list, SameArea m m' a := fun a ha =>
    ⟨by rw [hvm], by rw [hvm], by rw [hvm], by rw [hvmOf], hs a ha⟩
  have hA : ∀ a ∈ A, a ∈ m.vm.list := fun a ha => h.mem.mpr (Or.inr ha)
  have hB : ∀ b ∈ B, b ∈ m.vm.list := fun b hb => h.mem.mpr (Or.inl hb)
  refine ⟨⟨by rw [hvm]; exact h.areas, by rw [hvm]; exact h.listed, ?_, ?_, ?_,
    by rw [htab]; exact h.tables, ?_, by rw [hlp]; exact h.pagesNodup, ?_,
    by rw [hlo]; exact h.objsNodup, by rw [hvmOf]; exact h.pending⟩, hsame⟩
  · intro a ha
    rw [hvm] at ha
    exact (hsame a ha).record (h.record a ha)
  · exact fun a ha => (hsame a (hA a ha)).complete (h.complete a ha) fun v _ => by rw [htab]
  · intro v h1 h2 hA' hB'
    rw [htab]
    exact h.unmapped v h1 h2 (fun a ha hm => hA' a ha ((hsame a (hA a ha)).maps.mpr hm))
      fun b hb hc => hB' b hb ((hsame b (hB b hb)).covers.mpr hc)
  · rw [hlp, List.flatMap_congr fun a ha => (hsame a (hA a ha)).pagesOf]
    exact h.pages
  · rw [hlo, List.flatMap_congr fun a ha => (hsame a (hA a ha)).objsOf]
    exact h.objs

/-! ### Completing an area, and taking one up -/

/-- The area `va` is complete: its pages and objects are its own from now on. -/
theorem Core.seal (h : Core m T A (va :: B) (pagesOf m va ++ P) (objsOf m va ++ O))
    (hc : Complete m va)
    (hguard : ∀ v, Covers m.vm va (4096 * v) → ¬ Maps m va v → entry m.tables v = 0)
    (hB : ∀ b ∈ B, b ∈ O ∧ m.vmOf b ∈ O) : Core m T (va :: A) B P O where
  areas := h.areas
  listed := h.listed.trans List.perm_middle.symm
  record := h.record
  complete a ha := by
    rcases List.mem_cons.mp ha with rfl | ha
    · exact hc
    · exact h.complete a ha
  unmapped v h1 h2 hA hB := by
    by_cases hv : Covers m.vm va (4096 * v)
    · exact hguard v hv (hA va List.mem_cons_self)
    · refine h.unmapped v h1 h2 (fun a ha => hA a (List.mem_cons_of_mem _ ha)) fun b hb => ?_
      rcases List.mem_cons.mp hb with rfl | hb
      · exact hv
      · exact hB b hb
  tables := h.tables
  pages := by
    refine h.pages.trans (List.Perm.append_left T ?_)
    rw [List.flatMap_cons, List.append_assoc]
    exact List.perm_append_comm_assoc _ _ _
  pagesNodup := h.pagesNodup
  objs := by
    refine h.objs.trans ?_
    rw [List.flatMap_cons, List.append_assoc]
    exact List.perm_append_comm_assoc _ _ _
  objsNodup := h.objsNodup
  pending := hB

/-- A complete area is taken up again. -/
theorem Core.unseal (h : Core m T (va :: A) B P O) :
    Core m T A (va :: B) (pagesOf m va ++ P) (objsOf m va ++ O) where
  areas := h.areas
  listed := h.listed.trans List.perm_middle
  record := h.record
  complete a ha := h.complete a (List.mem_cons_of_mem _ ha)
  unmapped v h1 h2 hA hB := by
    refine h.unmapped v h1 h2 (fun a ha hm => ?_) fun b hb => hB b (List.mem_cons_of_mem _ hb)
    rcases List.mem_cons.mp ha with rfl | ha
    · exact hB a List.mem_cons_self ((h.complete a List.mem_cons_self).covers
        (h.record a (h.mem.mpr (Or.inr List.mem_cons_self))) hm)
    · exact hA a ha hm
  tables := h.tables
  pages := by
    refine h.pages.trans (List.Perm.append_left T ?_)
    rw [List.flatMap_cons, List.append_assoc]
    exact List.perm_append_comm_assoc _ _ _
  pagesNodup := h.pagesNodup
  objs := by
    refine h.objs.trans ?_
    rw [List.flatMap_cons, List.append_assoc]
    exact List.perm_append_comm_assoc _ _ _
  objsNodup := h.objsNodup
  pending b hb := by
    rcases List.mem_cons.mp hb with rfl | hb
    · simp [objsOf]
    · exact (h.pending b hb).imp (List.mem_append_right _) (List.mem_append_right _)

theorem Core.perm {A' : List ℕ} (h : Core m T A B P O) (hA : A.Perm A') : Core m T A' B P O where
  areas := h.areas
  listed := h.listed.trans (hA.append_left B)
  record := h.record
  complete a ha := h.complete a (hA.mem_iff.mpr ha)
  unmapped v h1 h2 h3 h4 := h.unmapped v h1 h2 (fun a ha => h3 a (hA.mem_iff.mp ha)) h4
  tables := h.tables
  pages := h.pages.trans ((List.Perm.append_left P (hA.flatMap_right _)).append_left T)
  pagesNodup := h.pagesNodup
  objs := h.objs.trans ((hA.flatMap_right _).append_left O)
  objsNodup := h.objsNodup
  pending := h.pending

/-- What is left after the area has been taken out and unmapped. -/
theorem Core.remove {t : Tables} {σ : Vm} (h : Core m T A (va :: B) P O) {O' : List ℕ}
    (hO : O.Perm (va :: O')) (hB : ∀ b ∈ B, b ∈ O' ∧ m.vmOf b ∈ O')
    (hareas : Inv VMALLOC_START VMALLOC_END σ) (hlist : σ.list = m.vm.list.erase va)
    (hsame : ∀ a, a ≠ va → SameArea m m' a) (hvm : m'.vm = σ) (htab : m'.tables = t)
    (hpages : m'.heap.livePages = m.heap.livePages)
    (hobjs : m'.heap.liveObjs = m.heap.liveObjs.erase va)
    (hclear : ∀ u w, m.vm.vaStart va = 4096 * u → m.vm.vaEnd va = 4096 * w →
      Cleared m.tables u w t) : Core m' T A B P O' := by
  have hmem : va ∈ m.vm.list := h.mem.mpr (Or.inl List.mem_cons_self)
  have hnd := h.nodup
  rw [List.cons_append, List.nodup_cons, List.mem_append, not_or] at hnd
  have hne : ∀ a ∈ B ++ A, a ≠ va := by
    rintro a ha rfl
    exact (List.mem_append.mp ha).elim hnd.1.1 hnd.1.2
  obtain ⟨u, w, hu, hw, -, -, -⟩ := h.span hmem
  have hcl := hclear u w hu hw
  have hlisted : m'.vm.list.Perm (B ++ A) := by
    rw [hvm, hlist]
    have := h.listed.erase va
    rwa [List.cons_append, List.erase_cons_head] at this
  have hold : ∀ a ∈ m'.vm.list, a ∈ m.vm.list ∧ a ≠ va := fun a ha =>
    ⟨by rw [hvm, hlist] at ha; exact List.mem_of_mem_erase ha, hne a (hlisted.subset ha)⟩
  have hsameA : ∀ a ∈ A, SameArea m m' a := fun a ha => hsame a (hne a (List.mem_append_right _ ha))
  have hpagesOf : A.flatMap (pagesOf m') = A.flatMap (pagesOf m) :=
    List.flatMap_congr fun a ha => (hsameA a ha).pagesOf
  have hobjsOf : A.flatMap (objsOf m') = A.flatMap (objsOf m) :=
    List.flatMap_congr fun a ha => (hsameA a ha).objsOf
  constructor
  · rw [hvm]
    exact hareas
  · exact hlisted
  · exact fun a ha => (hsame a (hold a ha).2).record (h.record a (hold a ha).1)
  · intro a ha
    refine (hsameA a ha).complete (h.complete a ha) fun v hv => ?_
    have hcov := (h.complete a ha).covers (h.record a (h.mem.mpr (Or.inr ha))) hv
    rw [htab, hcl.entry, if_neg]
    intro hin
    refine hne a (List.mem_append_right _ ha)
      (h.covers_unique (h.mem.mpr (Or.inr ha)) hmem hcov ?_)
    unfold Covers
    omega
  · intro v h1 h2 hA hB'
    rw [htab, hcl.entry]
    split_ifs with hin
    · rfl
    · refine h.unmapped v h1 h2 (fun a ha hm => hA a ha ((hsameA a ha).maps.mpr hm)) fun b hb => ?_
      rcases List.mem_cons.mp hb with rfl | hb
      · unfold Covers
        omega
      · intro hc
        exact hB' b hb ((hsame b (hne b (List.mem_append_left _ hb))).covers.mpr hc)
  · rw [htab]
    exact h.tables.congr hcl.dir
  · rw [hpages, hpagesOf]
    exact h.pages
  · rw [hpages]
    exact h.pagesNodup
  · rw [hobjs, hobjsOf]
    have := (h.objs.trans (hO.append_right _)).erase va
    rwa [List.cons_append, List.erase_cons_head] at this
  · rw [hobjs]
    exact h.objsNodup.erase va
  · intro b hb
    have hvmOf := (hsame b (hne b (List.mem_append_left _ hb))).vmOf
    rw [hvmOf]
    exact hB b hb

end HardStack.Vmalloc.Account
