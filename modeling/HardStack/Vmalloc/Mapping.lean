import HardStack.Vmalloc.Supply
import HardStack.Lib.Run

/-! # Runs of `vmalloc` and `vfree`

Along a run the account of the machine has nothing under way, so the page tables map the live areas to
their pages and nothing else (`reachable_faithful`). A call of `vfree` right after a successful `vmalloc`
leaves the areas of the other users alone, and frees what the account holds for its own; whether the
area of the array of pages is among that decides whether the pair leaves nothing behind
(`vfree_undoes_iff`). -/

namespace HardStack.Vmalloc.Mapping

open HardStack.Lib.Word HardStack.Vmalloc.Model HardStack.Vmalloc.Areas HardStack.Vmalloc.Paging
open HardStack.Vmalloc.Entries HardStack.Vmalloc.Account HardStack.Vmalloc.Release
open HardStack.Vmalloc.Request HardStack.Vmalloc.Supply

variable {m m₁ m₂ : Machine} {T A : List ℕ} {fuel size addr : ℕ}

/-- The machine, and what has been handed out and not given back, with the size it was asked for. -/
structure System where
  machine : Machine
  handed : List (ℕ × ℕ)

/-- The machine before the first call. -/
def start : Machine where
  vm := Run.init
  vmOf := fun _ => 0
  vmStruct := fun _ => ⟨0, 0, 0, none, fun _ => 0, 0⟩
  tables := ⟨fun _ => 0, fun _ _ => 0⟩
  heap := ⟨[], [], [], [], [], []⟩

/-- The page and the slab allocator will give these answers. -/
def supply (m : Machine) (pages objs : List ℕ) : Machine :=
  { m with heap := { m.heap with pageAnswers := pages, objAnswers := objs } }

/-- One call that returns. `Size` restricts the sizes asked for. -/
inductive Step (Size : ℕ → Prop) : System → System → Prop
  | vmalloc {m m' : Machine} {handed : List (ℕ × ℕ)} {pages objs : List ℕ} {fuel size addr : ℕ}
      (hsize : Size size) (h : vmalloc fuel (supply m pages objs) size = some (m', addr)) :
      Step Size ⟨m, handed⟩ ⟨m', if addr = 0 then handed else (addr, size) :: handed⟩
  | vfree {m m' : Machine} {handed : List (ℕ × ℕ)} {fuel : ℕ} {x : ℕ × ℕ} (hx : x ∈ handed)
      (h : vfree fuel m x.1 = some m') : Step Size ⟨m, handed⟩ ⟨m', handed.erase x⟩
  | vfreeNull {m m' : Machine} {handed : List (ℕ × ℕ)} {fuel : ℕ} (h : vfree fuel m 0 = some m') :
      Step Size ⟨m, handed⟩ ⟨m', handed⟩

/-- The systems that a run reaches. -/
def Reach (Size : ℕ → Prop) : System → Prop := Relation.ReflTransGen (Step Size) ⟨start, []⟩

/-- **The mapping is faithful.** `memory` is where the array for the physical memory starts. -/
structure Faithful (memory : ℕ) (s : System) : Prop where
  live : ∀ x ∈ s.handed, ∃ a ∈ s.machine.vm.list, s.machine.vm.vaStart a = x.1 ∧
    PAGE_SIZE * (structOf s.machine a).nrPages = pageAlign x.2
  mapped : ∀ a ∈ s.machine.vm.list, ∀ i < (structOf s.machine a).nrPages, ∀ off < PAGE_SIZE,
    mmuVaddrToAddr memory s.machine.tables (s.machine.vm.vaStart a + i * PAGE_SIZE + off) =
      some (addW 32 (pageAddress memory ((structOf s.machine a).page i)) off)
  guard : ∀ a ∈ s.machine.vm.list, ∀ off < PAGE_SIZE, mmuVaddrToAddr memory s.machine.tables
    (s.machine.vm.vaStart a + (structOf s.machine a).nrPages * PAGE_SIZE + off) = none
  unmapped : ∀ x, VMALLOC_START ≤ x → x < VMALLOC_END →
    (∀ a ∈ s.machine.vm.list, ∀ i < (structOf s.machine a).nrPages, ∀ off < PAGE_SIZE,
      x ≠ s.machine.vm.vaStart a + i * PAGE_SIZE + off) →
    mmuVaddrToAddr memory s.machine.tables x = none

/-! ### The invariant of a run -/

/-- What has been handed out starts different areas. -/
structure SysInv (s : System) (T A : List ℕ) : Prop where
  core : Core s.machine T A [] [] []
  live : ∀ x ∈ s.handed, ∃ a ∈ A, s.machine.vm.vaStart a = x.1 ∧
    PAGE_SIZE * (structOf s.machine a).nrPages = pageAlign x.2
  distinct : (s.handed.map Prod.fst).Nodup

theorem start_sysInv : SysInv ⟨start, []⟩ [] [] := by
  refine ⟨⟨(Run.init_sysInv _ _).inv, List.Perm.nil, fun _ ha => absurd ha List.not_mem_nil,
    fun _ ha => absurd ha List.not_mem_nil, fun v _ _ _ _ => entry_of_none rfl,
    ⟨List.nodup_nil, fun _ hf => absurd hf List.not_mem_nil, fun _ hb => absurd rfl hb,
      fun _ _ hb => absurd rfl hb⟩, List.Perm.nil, List.nodup_nil, List.Perm.nil, List.nodup_nil,
    fun _ hb => absurd hb List.not_mem_nil⟩, fun _ hx => absurd hx List.not_mem_nil, List.nodup_nil⟩

theorem supply_core (h : Core m T A [] [] []) (pages objs : List ℕ) :
    Core (supply m pages objs) T A [] [] [] :=
  (@Core.congr _ (supply m pages objs) _ _ _ _ _ h rfl rfl (fun _ _ => rfl) rfl rfl rfl).1

theorem supply_same (m : Machine) (pages objs : List ℕ) (a : ℕ) :
    SameArea m (supply m pages objs) a := ⟨rfl, rfl, rfl, rfl, rfl⟩

/-- An area covers its own start. -/
theorem covers_start (h : Core m T A [] [] []) {a : ℕ} (ha : a ∈ m.vm.list) :
    Covers m.vm a (m.vm.vaStart a) := ⟨le_rfl, (h.areas.range a ha).2.1⟩

/-- An area is the only one that starts where it does. -/
theorem start_unique (h : Core m T A [] [] []) {a b : ℕ} (ha : a ∈ m.vm.list) (hb : b ∈ m.vm.list)
    (hab : m.vm.vaStart a = m.vm.vaStart b) : a = b :=
  h.covers_unique ha hb (hab ▸ covers_start h ha) (covers_start h hb)

/-- `vmalloc` between two calls. -/
theorem vmalloc_spec (h : Core m T A [] [] []) {pages objs : List ℕ}
    (heq : vmalloc fuel (supply m pages objs) size = some (m₁, addr)) :
    Outcome (supply m pages objs) m₁ T A [] [] [] size addr :=
  vmallocNodeRange_spec (supply_core h pages objs) heq

/-- `vfree` of a complete area between two calls. -/
theorem vfree_complete {va : ℕ} (h : Core m T (va :: A) [] [] [])
    (heq : vfree fuel m (m.vm.vaStart va) = some m₁) : Core m₁ T A [] [] [] ∧
      (∀ a, a ≠ va → SameArea m m₁ a) ∧ Freed m m₁ va := by
  obtain ⟨hcore, hsame, hfreed, -⟩ := vfree_spec h.unseal h.pending
    (h.complete va List.mem_cons_self).managed heq
  exact ⟨hcore, hsame, hfreed⟩

theorem vmalloc_sysInv {s : System} (h : SysInv s T A) {pages objs : List ℕ}
    (heq : vmalloc fuel (supply s.machine pages objs) size = some (m₁, addr)) :
    ∃ T' A', SysInv ⟨m₁, if addr = 0 then s.handed else (addr, size) :: s.handed⟩ T' A' := by
  obtain ⟨N, L, hcore, hframe, -, haddr⟩ := vmalloc_spec h.core heq
  have hold : ∀ x ∈ s.handed, ∃ a ∈ A, m₁.vm.vaStart a = x.1 ∧
      PAGE_SIZE * (structOf m₁ a).nrPages = pageAlign x.2 := by
    intro x hx
    obtain ⟨a, ha, hstart, hn⟩ := h.live x hx
    have hsame := hframe.same a (h.core.mem.mpr (Or.inr ha))
    exact ⟨a, ha, hsame.vaStart.trans hstart, by rw [hsame.struct]; exact hn⟩
  refine ⟨N ++ T, L ++ A, hcore, ?_, ?_⟩
  · intro x hx
    by_cases h0 : addr = 0
    · obtain ⟨a, ha, hx'⟩ := hold x (by simpa [h0] using hx)
      exact ⟨a, List.mem_append_right _ ha, hx'⟩
    · obtain ⟨va, L', rfl, hstart, hn, -⟩ := haddr h0
      simp only [if_neg h0] at hx
      rcases List.mem_cons.mp hx with rfl | hx
      · exact ⟨va, by simp, hstart, hn⟩
      · obtain ⟨a, ha, hx'⟩ := hold x hx
        exact ⟨a, List.mem_append_right _ ha, hx'⟩
  · by_cases h0 : addr = 0
    · simpa [h0] using h.distinct
    · obtain ⟨va, L', rfl, hstart, -⟩ := haddr h0
      simp only [if_neg h0, List.map_cons, List.nodup_cons]
      refine ⟨fun hmem => ?_, h.distinct⟩
      obtain ⟨x, hx, hxa⟩ := List.mem_map.mp hmem
      obtain ⟨a, ha, hax, -⟩ := hold x hx
      have hnd := hcore.nodup
      have hva : va ∈ m₁.vm.list := hcore.mem.mpr (Or.inr (by simp))
      have ha' : a ∈ m₁.vm.list := hcore.mem.mpr (Or.inr (List.mem_append_right _ ha))
      have heqa : a = va := start_unique hcore ha' hva (by rw [hax, hxa, hstart])
      rw [List.nil_append, List.cons_append, List.nodup_cons] at hnd
      exact hnd.1 (List.mem_append_right _ (heqa ▸ ha))

theorem vfree_sysInv {s : System} (h : SysInv s T A) {x : ℕ × ℕ} (hx : x ∈ s.handed)
    (heq : vfree fuel s.machine x.1 = some m₁) : ∃ A', SysInv ⟨m₁, s.handed.erase x⟩ T A' := by
  obtain ⟨a, ha, hstart, -⟩ := h.live x hx
  have hperm : A.Perm (a :: A.erase a) := List.perm_cons_erase ha
  have hcore := h.core.perm hperm
  rw [← hstart] at heq
  obtain ⟨hcore₁, hsame, -⟩ := vfree_complete hcore heq
  have hnd : (s.handed.map Prod.fst).Nodup := h.distinct
  refine ⟨A.erase a, hcore₁, fun y hy => ?_,
    hnd.sublist ((List.erase_sublist (a := x)).map Prod.fst)⟩
  have hy' : y ∈ s.handed := List.mem_of_mem_erase hy
  obtain ⟨b, hb, hbs, hbn⟩ := h.live y hy'
  have hyx : y.1 ≠ x.1 := by
    intro he
    have hinj := List.inj_on_of_nodup_map hnd hy' hx he
    exact ((List.Nodup.of_map _ hnd).mem_erase_iff.mp hy).1 hinj
  have hba : b ≠ a := by
    rintro rfl
    exact hyx (hbs.symm.trans hstart)
  exact ⟨b, (List.mem_erase_of_ne hba).mpr hb, (hsame b hba).vaStart.trans hbs,
    by rw [(hsame b hba).struct]; exact hbn⟩

theorem step_sysInv {Size : ℕ → Prop} {s s' : System} (h : ∃ T A, SysInv s T A)
    (hst : Step Size s s') : ∃ T A, SysInv s' T A := by
  obtain ⟨T, A, h⟩ := h
  cases hst with
  | vmalloc _ heq => exact vmalloc_sysInv h heq
  | vfree hx heq => exact ⟨T, vfree_sysInv h hx heq⟩
  | vfreeNull heq =>
    obtain rfl := Option.some.inj heq
    exact ⟨T, A, h⟩

theorem reachable_sysInv {Size : ℕ → Prop} {s : System} (h : Reach Size s) :
    ∃ T A, SysInv s T A :=
  Lib.Run.invariant (I := fun s => ∃ T A, SysInv s T A) ⟨[], [], start_sysInv⟩
    (fun _ _ => step_sysInv) h

/-! ### The mapping -/

/-- An address that the tables map lies in a page of a live area. -/
theorem SysInv.unmapped {s : System} (h : SysInv s T A) (memory : ℕ) {v off : ℕ} (hoff : off < 4096)
    (h1 : VMALLOC_START ≤ 4096 * v) (h2 : 4096 * v < VMALLOC_END)
    (hA : ∀ a ∈ s.machine.vm.list, ¬ Maps s.machine a v) :
    mmuVaddrToAddr memory s.machine.tables (4096 * v + off) = none := by
  rw [mmuVaddrToAddr_eq memory _ v hoff, if_pos]
  exact h.core.unmapped v h1 h2 (fun a ha => hA a (h.core.mem.mpr (Or.inr ha)))
    fun _ hb => absurd hb List.not_mem_nil

theorem SysInv.faithful {s : System} (h : SysInv s T A) (memory : ℕ) : Faithful memory s := by
  have hps : PAGE_SIZE = 4096 := rfl
  obtain ⟨hs, he⟩ := vmalloc_range
  have hcomplete : ∀ a ∈ s.machine.vm.list, Complete s.machine a := fun a ha =>
    h.core.complete a ((h.core.mem.mp ha).resolve_left List.not_mem_nil)
  refine ⟨fun x hx => ?_, fun a ha i hi off hoff => ?_, fun a ha off hoff => ?_, fun x h1 h2 hx => ?_⟩
  · obtain ⟨a, ha, hxa⟩ := h.live x hx
    exact ⟨a, h.core.mem.mpr (Or.inr ha), hxa⟩
  · obtain ⟨u, w, hu, -⟩ := h.core.span ha
    have hentry := (hcomplete a ha).mapped i hi
    have haddr : s.machine.vm.vaStart a + i * PAGE_SIZE + off = 4096 * (u + i) + off := by
      rw [hps, hu]
      omega
    rw [hu, show 4096 * u / 4096 + i = u + i by omega] at hentry
    rw [haddr]
    exact mmuVaddrToAddr_mapped memory hoff (managed_lt ((hcomplete a ha).managed i hi)).1 hentry
  · -- the guard page belongs to the area, and none of the pages of the area is there
    obtain ⟨u, w, hu, hw, hu1, huw, hw1⟩ := h.core.span ha
    have hstop := (hcomplete a ha).stop
    set n := (structOf s.machine a).nrPages with hn
    have haddr : s.machine.vm.vaStart a + n * PAGE_SIZE + off = 4096 * (u + n) + off := by
      rw [hps, hu]
      omega
    rw [haddr]
    refine h.unmapped memory hoff (by omega) (by omega) fun b hb hm => ?_
    have hcb := (hcomplete b hb).covers (h.core.record b hb) hm
    have hca : Covers s.machine.vm a (4096 * (u + n)) := by
      unfold Covers
      omega
    obtain rfl := h.core.covers_unique hb ha hcb hca
    obtain ⟨i, hi, hv⟩ := hm
    omega
  · have hdiv : x = 4096 * (x / 4096) + x % 4096 := (Nat.div_add_mod x 4096).symm
    rw [hdiv]
    refine h.unmapped memory (Nat.mod_lt _ (by decide)) (by omega) (by omega) ?_
    rintro a ha ⟨i, hi, hv⟩
    refine hx a ha i hi (x % 4096) (Nat.mod_lt _ (by decide)) ?_
    obtain ⟨u, w, hu, -⟩ := h.core.span ha
    rw [hps, hu]
    rw [hu] at hv
    omega

/-- The machine after a request for 5000 bytes. -/
def small : Machine :=
  ((vmalloc 20 (supply start [0x60000, 0x60001, 0x60002] [4, 8, 12]) 5000).getD (start, 0)).1

theorem vmalloc_small :
    vmalloc 20 (supply start [0x60000, 0x60001, 0x60002] [4, 8, 12]) 5000 =
      some (small, 0x81800000) := by
  have h : (vmalloc 20 (supply start [0x60000, 0x60001, 0x60002] [4, 8, 12]) 5000).map Prod.snd =
      some 0x81800000 := by decide +kernel
  obtain ⟨p, hp, hsnd⟩ := Option.map_eq_some_iff.mp h
  unfold small
  rw [hp, ← hsnd]
  rfl

/-- The array of pages is back where it came from. -/
def Released (m m' : Machine) : Option Ptr → Prop
  | none => False
  | some (.slab x) => x ∈ m.heap.liveObjs ∧ x ∉ m'.heap.liveObjs ∧
      ∃ objs, m'.heap.freedObjs = m.heap.freedObjs ++ objs ∧ .slab x ∈ objs
  | some (.vmalloc y) => ∀ a ∈ m'.vm.list, ¬ Covers m'.vm a y

/-- The frames hold page tables. -/
def PageTables (t : Tables) (N : List ℕ) : Prop := ∀ f ∈ N, ∃ pmd, t.dir pmd = pmdValue f

/-- Between `m` and `m'` only page tables have been added. -/
structure Restored (m m' : Machine) : Prop where
  areas : m'.vm.list.Perm m.vm.list
  ranges : ∀ a ∈ m.vm.list, m'.vm.vaStart a = m.vm.vaStart a ∧ m'.vm.vaEnd a = m.vm.vaEnd a
  pages : ∃ N, PageTables m'.tables N ∧ m'.heap.livePages.Perm (N ++ m.heap.livePages)
  objs : m'.heap.liveObjs.Perm m.heap.liveObjs

/-- **`vfree` undoes `vmalloc`**, which led from `m` to `m₁` and returned `addr`. -/
structure Undone (m m₁ m₂ : Machine) (addr : ℕ) : Prop where
  restored : Restored m m₂
  pages : ∀ a ∈ m₁.vm.list, m₁.vm.vaStart a = addr → (pagesOf m₁ a).Nodup ∧
    (∀ p ∈ pagesOf m₁ a, p ∈ m₁.heap.livePages) ∧
    m₂.heap.freedPages = m₁.heap.freedPages ++ pagesOf m₁ a
  array : ∀ a ∈ m₁.vm.list, m₁.vm.vaStart a = addr → Released m₁ m₂ (structOf m₁ a).pages

/-- A call that has left no area behind has left nothing but page tables. -/
theorem restored_of_core {N : List ℕ} (h : Core m T A [] [] []) (h' : Core m₁ (N ++ T) A [] [] [])
    (hsame : ∀ a ∈ m.vm.list, SameArea m m₁ a) : Restored m m₁ := by
  have hA : ∀ a ∈ A, a ∈ m.vm.list := fun a ha => h.mem.mpr (Or.inr ha)
  refine ⟨h'.listed.trans h.listed.symm, fun a ha => ⟨(hsame a ha).vaStart, (hsame a ha).vaEnd⟩,
    ⟨N, fun f hf => ?_, ?_⟩, ?_⟩
  · obtain ⟨b, hb⟩ := h'.tables.used f (List.mem_append_left _ hf)
    exact ⟨2 * b, hb⟩
  · refine h'.pages.trans ?_
    rw [List.flatMap_congr fun a ha => (hsame a (hA a ha)).pagesOf, List.append_assoc]
    exact h.pages.symm.append_left N
  · refine h'.objs.trans ?_
    rw [List.flatMap_congr fun a ha => (hsame a (hA a ha)).objsOf]
    exact h.objs.symm

/-- The pair of calls, seen from its account. -/
structure Pair (m m₁ m₂ : Machine) (T A : List ℕ) (size addr : ℕ) (N L : List ℕ) (va : ℕ) :
    Prop where
  before : Core m T A [] [] []
  between : Core m₁ (N ++ T) (va :: (L ++ A)) [] [] []
  after : Core m₂ (N ++ T) (L ++ A) [] [] []
  start : m₁.vm.vaStart va = addr
  same : ∀ a ∈ m.vm.list, SameArea m m₂ a
  same₁ : ∀ a, a ≠ va → SameArea m₁ m₂ a
  freed : Freed m₁ m₂ va
  small : pageAlign size ≤ 4096 * 1024 → L = [] ∧ ∃ x, (structOf m₁ va).pages = some (.slab x)
  large : 4096 * 1024 < pageAlign size → L ≠ []

theorem vmalloc_vfree_pair (h : Core m T A [] [] []) {pages objs : List ℕ} {fuel' : ℕ}
    (hm₁ : vmalloc fuel (supply m pages objs) size = some (m₁, addr)) (haddr : addr ≠ 0)
    (hm₂ : vfree fuel' m₁ addr = some m₂) :
    ∃ N L va, Pair m m₁ m₂ T A size addr N L va := by
  obtain ⟨N, L, hcore, hframe, -, hres⟩ := vmalloc_spec h hm₁
  obtain ⟨va, L', rfl, rfl, -, hsmall, hlarge⟩ := hres haddr
  rw [List.cons_append] at hcore
  obtain ⟨hcore₂, hsame₂, hfreed⟩ := vfree_complete hcore hm₂
  refine ⟨N, L', va, h, hcore, hcore₂, rfl, fun a ha => ?_, hsame₂, hfreed, hsmall, hlarge⟩
  have hnd := hcore.nodup
  rw [List.nil_append, List.nodup_cons, List.mem_append, not_or] at hnd
  have haA : a ∈ A := (h.mem.mp ha).resolve_left List.not_mem_nil
  have hne : a ≠ va := fun he => hnd.1.2 (he ▸ haA)
  exact ((supply_same m pages objs a).trans (hframe.same a ha)).trans (hsame₂ a hne)

variable {N L : List ℕ} {va : ℕ}

/-- The area that starts at the address handed out is the one asked for. -/
theorem Pair.start_eq (h : Pair m m₁ m₂ T A size addr N L va) {a : ℕ} (ha : a ∈ m₁.vm.list)
    (hs : m₁.vm.vaStart a = addr) : a = va :=
  start_unique h.between ha (h.between.mem.mpr (Or.inr List.mem_cons_self)) (hs.trans h.start.symm)

theorem Pair.undone (h : Pair m m₁ m₂ T A size addr N L va)
    (hsize : pageAlign size ≤ 4096 * 1024) : Undone m m₁ m₂ addr := by
  obtain ⟨rfl, x, hx⟩ := h.small hsize
  have hpages := h.between.pages
  have hobjs := h.between.objs
  rw [List.nil_append] at hpages hobjs
  rw [List.flatMap_cons] at hpages hobjs
  refine ⟨restored_of_core h.before h.after h.same, fun a ha hs => ?_, fun a ha hs => ?_⟩
  · obtain rfl := h.start_eq ha hs
    have hnd := hpages.nodup_iff.mp h.between.pagesNodup
    exact ⟨(List.nodup_append.mp (List.nodup_append.mp hnd).2.1).1,
      fun p hp => hpages.symm.subset (List.mem_append_right _ (List.mem_append_left _ hp)),
      h.freed.pages⟩
  · obtain rfl := h.start_eq ha hs
    have hslab : x ∈ objsOf m₁ a := by
      unfold objsOf slabArray
      rw [hx]
      simp
    rw [hx]
    refine ⟨hobjs.symm.subset (List.mem_append_left _ hslab), fun hlive => ?_, _, h.freed.objs, ?_⟩
    · -- the objects that are left belong to other areas
      have hleft := h.after.objs.subset hlive
      rw [List.nil_append, List.nil_append] at hleft
      have hnd := hobjs.nodup_iff.mp h.between.objsNodup
      have hsame : (([] : List ℕ) ++ A).flatMap (objsOf m₁) = A.flatMap (objsOf m₂) := by
        refine List.flatMap_congr fun b hb => ?_
        have hndA := h.between.nodup
        rw [List.nil_append, List.nodup_cons] at hndA
        exact (h.same₁ b fun he => hndA.1 (he ▸ hb)).objsOf.symm
      rw [hsame] at hnd
      exact (List.nodup_append.mp hnd).2.2 x hslab x hleft rfl
    · rw [hx]
      simp

theorem Pair.not_restored (h : Pair m m₁ m₂ T A size addr N L va)
    (hsize : 4096 * 1024 < pageAlign size) : ¬ Restored m m₂ := by
  intro hres
  have hlen := (h.after.listed.symm.trans (hres.areas.trans h.before.listed)).length_eq
  have hL := List.length_pos_of_ne_nil (h.large hsize)
  rw [List.nil_append, List.nil_append, List.length_append] at hlen
  omega

/-- **`vfree` undoes `vmalloc`** exactly if the array of pages fits into a page. The area of a larger
array stays, since `kvfree` takes it for an object of the slab allocator. -/
theorem vfree_undoes_iff {s : System} (hs : Reach (fun _ => True) s) {pages objs : List ℕ}
    (hm₁ : vmalloc fuel (supply s.machine pages objs) size = some (m₁, addr)) (haddr : addr ≠ 0)
    {fuel' : ℕ} (hf : m₁.vm.list.length < fuel' ∧ 2 ^ 20 ≤ fuel') :
    (∃ m₂, vfree fuel' m₁ addr = some m₂ ∧ Undone s.machine m₁ m₂ addr) ↔
      pageAlign size ≤ 1024 * PAGE_SIZE := by
  obtain ⟨T, A, hinv⟩ := reachable_sysInv hs
  constructor
  · rintro ⟨m₂, hm₂, hundone⟩
    obtain ⟨N, L, va, hpair⟩ := vmalloc_vfree_pair hinv.core hm₁ haddr hm₂
    by_contra hlt
    exact hpair.not_restored (not_le.mp hlt) hundone.restored
  · intro hle
    obtain ⟨N, L, hcore, -, -, hres⟩ := vmalloc_spec hinv.core hm₁
    obtain ⟨va, L', rfl, hstart, -⟩ := hres haddr
    rw [List.cons_append] at hcore
    have hva : va ∈ m₁.vm.list := hcore.mem.mpr (Or.inr List.mem_cons_self)
    obtain ⟨u, w, hu, hw, -, -, hw1⟩ := hcore.span hva
    obtain ⟨m₂, hm₂⟩ := @vfree_of_lt _ _ _ _ _ _ _ fuel' hcore.unseal hcore.pending
      (hcore.complete va List.mem_cons_self).managed ⟨hf.1, by omega⟩
    rw [hstart] at hm₂
    obtain ⟨N', L'', va', hpair⟩ := vmalloc_vfree_pair hinv.core hm₁ haddr hm₂
    exact ⟨m₂, hm₂, hpair.undone hle⟩

theorem vfree_undoes_iff_small :
    ∃ m₂, vfree (2 ^ 20) small 0x81800000 = some m₂ ∧ Undone start small m₂ 0x81800000 :=
  (vfree_undoes_iff (s := ⟨start, []⟩) .refl vmalloc_small (by decide)
    ⟨by decide +kernel, le_rfl⟩).mpr (by decide)

/-- A request for 1025 pages, up to where it has got its array. -/
def arrayed : Option (Machine × Option Ptr) :=
  (getVmAreaNode 1100 (supply start (List.range' 0x60000 2060) [4, 8, 12, 16, 20, 24]) (4096 * 1025)
    1 (VM_ALLOC ||| VM_UNINITIALIZED) VMALLOC_START VMALLOC_END).bind fun r =>
      allocArray (vmallocNodeRange 1100 1099)
        (r.1.setStruct r.2 { r.1.vmStruct r.2 with nrPages := 1025 }) (1025 * 4)

set_option maxRecDepth 4000 in
theorem arrayed_heap : arrayed.map (fun r =>
    (r.2.isSome, r.1.heap.livePages, r.1.heap.pageAnswers)) =
      some (true, [0x60002, 0x60001, 0x60000], List.range' 0x60003 2057) := by decide +kernel

theorem arrayed_plenty {x : Option Ptr} (h : arrayed = some (m, x)) :
    (∃ p, x = some p) ∧ Plenty m.heap (1025 + 1025) := by
  have hheap := arrayed_heap
  rw [h] at hheap
  obtain ⟨hx, hlive, hans⟩ : x.isSome = true ∧ m.heap.livePages = [0x60002, 0x60001, 0x60000] ∧
      m.heap.pageAnswers = List.range' 0x60003 2057 := by simpa using hheap
  refine ⟨Option.isSome_iff_exists.mp hx, ?_, fun p hp => ?_, ?_⟩
  · rw [hans, List.length_range']
    decide
  · have hb : PFN_OFFSET = 0x60000 ∧ totalramPages = 0x1000 := by decide
    rw [hans, List.mem_range'_1] at hp
    unfold Managed
    omega
  · rw [hans, hlive, List.nodup_append]
    refine ⟨List.nodup_range', by decide, fun p hp q hq => ?_⟩
    rw [List.mem_range'_1] at hp
    simp only [List.mem_cons, List.not_mem_nil, or_false] at hq
    omega

/-- A request for 1025 pages is served. -/
theorem exists_vmalloc_large : ∃ m₁ addr, addr ≠ 0 ∧
    vmalloc 1100 (supply start (List.range' 0x60000 2060) [4, 8, 12, 16, 20, 24]) (4096 * 1025) =
      some (m₁, addr) := by
  have hcore := supply_core start_sysInv.core (List.range' 0x60000 2060) [4, 8, 12, 16, 20, 24]
  set m₀ := supply start (List.range' 0x60000 2060) [4, 8, 12, 16, 20, 24] with hm₀
  have harr : ∃ r, arrayed = some r := by
    have hheap := arrayed_heap
    rcases harr : arrayed with _ | r
    · rw [harr] at hheap
      exact absurd hheap (by simp)
    · exact ⟨r, rfl⟩
  obtain ⟨⟨m₂, x⟩, hm₂⟩ := harr
  obtain ⟨⟨p, rfl⟩, hplenty⟩ := arrayed_plenty hm₂
  unfold arrayed at hm₂
  rw [← hm₀] at hm₂
  obtain ⟨⟨m, area⟩, hm, hm₂⟩ := Option.bind_eq_some_iff.mp hm₂
  have harea : area ≠ 0 := by
    have h : (getVmAreaNode 1100 m₀ (4096 * 1025) 1 (VM_ALLOC ||| VM_UNINITIALIZED) VMALLOC_START
        VMALLOC_END).map Prod.snd = some 4 := by
      rw [hm₀]
      decide +kernel
    rw [hm] at h
    obtain rfl : area = 4 := Option.some.inj h
    decide
  obtain ⟨va, hcore₁, -, hst⟩ :=
    (getVmAreaNode_spec hcore (n := 1025) (by decide) (by decide) hm).2 harea
  obtain ⟨m', hm'⟩ := @vmallocAreaNode_plenty _ _ _ _ _ _ _ _ _ 1100 _ _ _ _
    (fun hc heq => vmallocNodeRange_spec hc heq) hcore₁ hst (by decide) (by decide)
    (fun _ hb => absurd hb List.not_mem_nil) hm₂ (by decide) hplenty
  have hva : m.vm.vaStart va ≠ 0 := by
    obtain ⟨u, w, hu, -, hu1, -⟩ := hcore₁.span (hcore₁.mem.mpr (Or.inl List.mem_cons_self))
    omega
  refine ⟨clearVmUninitializedFlag m' area, m.vm.vaStart va, hva, ?_⟩
  unfold vmalloc
  rw [vmallocNodeRange]
  have hsize : pageAlign (4096 * 1025) = 4096 * 1025 := pageAlign_eq (by decide)
  dsimp only
  rw [hsize, if_neg (by decide), hm]
  simp only [Option.bind_eq_bind, Option.bind_some]
  rw [if_neg harea, hm', Option.bind_some]
  exact if_neg hva

/-- The array of 1025 pages is larger than a page. After the pair of calls its area is still there. -/
theorem not_undone_large : ∃ m₁ addr, addr ≠ 0 ∧
    vmalloc 1100 (supply start (List.range' 0x60000 2060) [4, 8, 12, 16, 20, 24]) (4096 * 1025) =
      some (m₁, addr) ∧
    ∀ fuel' m₂, vfree fuel' m₁ addr = some m₂ → ¬ Undone start m₁ m₂ addr := by
  obtain ⟨m₁, addr, haddr, hm₁⟩ := exists_vmalloc_large
  refine ⟨m₁, addr, haddr, hm₁, fun fuel' m₂ hm₂ hundone => ?_⟩
  obtain ⟨N, L, va, hpair⟩ := vmalloc_vfree_pair start_sysInv.core hm₁ haddr hm₂
  have hsize : pageAlign (4096 * 1025) = 4096 * 1025 := pageAlign_eq (by decide)
  exact hpair.not_restored (by rw [hsize]; decide) hundone.restored

/-! ### A call that fails -/

/-- **A failing `vmalloc`** leaves nothing behind but page tables, wherever it fails. -/
theorem vmalloc_null_restored {s : System} (hs : Reach (fun _ => True) s) {pages objs : List ℕ}
    (hsize : size ≤ 1024 * PAGE_SIZE)
    (hm₁ : vmalloc fuel (supply s.machine pages objs) size = some (m₁, 0)) :
    Restored s.machine m₁ := by
  have hps : PAGE_SIZE = 4096 := rfl
  obtain ⟨T, A, hinv⟩ := reachable_sysInv hs
  obtain ⟨N, L, hcore, hframe, hL, -⟩ := vmalloc_spec hinv.core hm₁
  have hle : pageAlign size ≤ 4096 * 1024 := by
    unfold pageAlign PAGE_SIZE PAGE_SHIFT
    rw [alignUp_eq (by decide)]
    omega
  obtain rfl := hL rfl hle
  exact restored_of_core hinv.core hcore fun a ha =>
    (supply_same s.machine pages objs a).trans (hframe.same a ha)

/-- There is a frame for the first of two pages only. -/
theorem vmalloc_null_restored_one : ∃ m₁, vmalloc 20 (supply start [0x60000, 0] [4, 8, 12]) 5000 =
    some (m₁, 0) ∧ Restored start m₁ := by
  have h : (vmalloc 20 (supply start [0x60000, 0] [4, 8, 12]) 5000).map Prod.snd = some 0 := by
    decide +kernel
  obtain ⟨⟨m₁, addr⟩, hm₁, rfl⟩ := Option.map_eq_some_iff.mp h
  exact ⟨m₁, hm₁, vmalloc_null_restored (s := ⟨start, []⟩) .refl (by decide) hm₁⟩

end HardStack.Vmalloc.Mapping
