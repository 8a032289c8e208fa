import HardStack.Tmap.Pool

/-! # Runs of the pool

Everything but the flags of free vpages survives each call whose mapping is not given up, and the flags
survive as long as no vpage comes back. Any other call breaks what it should keep. -/

namespace HardStack.Tmap.Run

open HardStack.Tmap.Model HardStack.Tmap.Walk HardStack.Tmap.Pool

variable {c : Config} {kmem : ℕ → Bool} {alloc : Level → Bool} {s s' : State} {call : Call} {r : Option ℕ}
  {i j addr phys : ℕ} {prot : Prot} {pte : Pte} {rest : List ℕ} {pgd' : PgdTable}

/-! ### Vpages -/

theorem vpage_lt (h : Stock c s) (hi : i ∈ s.freeHead ∨ i ∈ s.inuseHead) : i < s.nr :=
  List.mem_range.mp (h.lists.mem_iff.mp (List.mem_append.mpr hi))

theorem lists_disjoint (h : Stock c s) (hi : i ∈ s.freeHead) : i ∉ s.inuseHead := fun hi' =>
  (List.nodup_append.mp (h.lists.nodup_iff.mpr List.nodup_range)).2.2 i hi i hi' rfl

theorem free_nodup (h : Stock c s) : s.freeHead.Nodup :=
  (List.nodup_append.mp (h.lists.nodup_iff.mpr List.nodup_range)).1

theorem inuse_nodup (h : Stock c s) : s.inuseHead.Nodup :=
  (List.nodup_append.mp (h.lists.nodup_iff.mpr List.nodup_range)).2.1

theorem vaddr_mem (hi : i < s.nr) : s.vaddr i ∈ addresses s := List.mem_map_of_mem (List.mem_range.mpr hi)

theorem vaddr_inj (h : Stock c s) (hi : i < s.nr) (hj : j < s.nr) (hij : s.vaddr i = s.vaddr j) : i = j :=
  List.inj_on_of_nodup_map h.nodup (List.mem_range.mpr hi) (List.mem_range.mpr hj) hij

theorem vaddr_apart (h : Stock c s) (hi : i < s.nr) (hj : j < s.nr) (hij : i ≠ j) :
    Apart c.l5 (s.vaddr i) (s.vaddr j) := by
  obtain ⟨pfn, hpfn, hvi⟩ := (h.covers _).mp (vaddr_mem hi)
  obtain ⟨pfn', hpfn', hvj⟩ := (h.covers _).mp (vaddr_mem hj)
  rw [← hvi, ← hvj]
  refine va_apart hpfn hpfn' fun heq => hij (vaddr_inj h hi hj ?_)
  rw [← hvi, ← hvj, heq]

/-! ### `_tmap_prot` -/

/-- A vpage goes from the free list to the other one. -/
def use (s : State) (vpage : ℕ) (pgd : PgdTable) : State :=
  { s with
    pgd := pgd
    inuse := Function.update s.inuse vpage true
    freeHead := s.freeHead.erase vpage
    inuseHead := vpage :: s.inuseHead }

theorem tmapProt_nil (h : s.freeHead = []) : tmapProt c alloc phys prot s = some (none, s) := by
  unfold tmapProt
  rw [h]

theorem tmapProt_cons (h : s.freeHead = i :: rest) : tmapProt c alloc phys prot s =
    (tmapMapping c alloc (s.vaddr i) phys prot s.pgd).map fun x => (some (s.vaddr i), use s i x.2) := by
  unfold tmapProt
  rw [h]
  dsimp only
  rw [← h]
  cases tmapMapping c alloc (s.vaddr i) phys prot s.pgd <;> rfl

theorem use_stock (h : Stock c s) (hi : i ∈ s.freeHead)
    (hset : descendAll c.l5 alloc (s.vaddr i) pte s.pgd = some pgd') : Stock c (use s i pgd') where
  nodup := h.nodup
  covers := h.covers
  lists := by
    show (s.freeHead.erase i ++ i :: s.inuseHead).Perm _
    exact List.perm_middle.trans (((List.perm_cons_erase hi).symm.append_right _).trans h.lists)
  used j hj := by
    show Function.update s.inuse i true j = true
    rcases List.mem_cons.mp hj with heq | hj
    · rw [heq, Function.update_self]
    · have hne : j ≠ i := fun heq => lists_disjoint h hi (heq ▸ hj)
      rw [Function.update_of_ne hne]
      exact h.used j hj
  clear j hj := by
    show lookup c.l5 pgd' (s.vaddr j) = none
    have hne : i ≠ j := fun heq => (free_nodup h).not_mem_erase (heq ▸ hj)
    have hj := List.mem_of_mem_erase hj
    rw [descendAll_other hset (vaddr_apart h (vpage_lt h (Or.inl hi)) (vpage_lt h (Or.inl hj)) hne)]
    exact h.clear j hj

/-! ### `BiscuitOS_tumap` -/

/-- A vpage goes back to the free list. -/
def release (c : Config) (alloc : Level → Bool) (s : State) (vpage : ℕ) : State :=
  { s with
    pgd := applyToPage c alloc (s.vaddr vpage) s.pgd
    inuseHead := s.inuseHead.erase vpage
    freeHead := s.freeHead ++ [vpage] }

theorem tumapRounds_eq_self : ∀ {L : List ℕ} {s : State}, (∀ i ∈ L, s.vaddr i ≠ addr) →
    L.foldl (tumapRound c alloc addr) s = s
  | [], _, _ => rfl
  | i :: L, s, h => by
    have hround : tumapRound c alloc addr s i = s := if_neg (h i List.mem_cons_self).symm
    rw [List.foldl_cons, hround]
    exact tumapRounds_eq_self fun j hj => h j (List.mem_cons_of_mem _ hj)

theorem biscuitOSTumap_of_mem (h : Stock c s) (hi : i ∈ s.inuseHead) :
    biscuitOSTumap c alloc (s.vaddr i) s = release c alloc s i := by
  have hother : ∀ j ∈ s.inuseHead, j ≠ i → s.vaddr j ≠ s.vaddr i := fun j hj hne heq =>
    hne (vaddr_inj h (vpage_lt h (Or.inr hj)) (vpage_lt h (Or.inr hi)) heq)
  have hnodup := inuse_nodup h
  obtain ⟨L, M, hL⟩ := List.append_of_mem hi
  have hround : tumapRound c alloc (s.vaddr i) s i = release c alloc s i := if_pos rfl
  unfold biscuitOSTumap
  rw [hL] at hother hnodup ⊢
  obtain ⟨-, hM, hdisj⟩ := List.nodup_append.mp hnodup
  have hbefore : L.foldl (tumapRound c alloc (s.vaddr i)) s = s := tumapRounds_eq_self fun j hj =>
    hother j (List.mem_append_left _ hj) (hdisj j hj i List.mem_cons_self)
  rw [List.foldl_append, List.foldl_cons, hbefore, hround]
  refine tumapRounds_eq_self fun j hj => ?_
  refine hother j (List.mem_append_right _ (List.mem_cons_of_mem _ hj)) fun heq => ?_
  exact (List.nodup_cons.mp hM).1 (heq ▸ hj)

theorem release_stock (h : Stock c s) (alloc : Level → Bool) (hi : i ∈ s.inuseHead) :
    Stock c (release c alloc s i) where
  nodup := h.nodup
  covers := h.covers
  lists := by
    show (s.freeHead ++ [i] ++ s.inuseHead.erase i).Perm _
    rw [List.append_assoc]
    exact ((List.perm_cons_erase hi).symm.append_left _).trans h.lists
  used j hj := h.used j (List.mem_of_mem_erase hj)
  clear j hj := by
    show lookup c.l5 (applyToPage c alloc (s.vaddr i) s.pgd) (s.vaddr j) = none
    rcases List.mem_append.mp hj with hj | hj
    · have hne : i ≠ j := fun heq => lists_disjoint h hj (heq ▸ hi)
      rw [applyToPage_other (vaddr_apart h (vpage_lt h (Or.inr hi)) (vpage_lt h (Or.inl hj)) hne)]
      exact h.clear j hj
    · rw [List.mem_singleton.mp hj]
      exact applyToPage_self

/-- **`BiscuitOS_tumap`** of any address keeps the pool, but for the flags of free vpages. -/
theorem tumap_stock (h : Stock c s) (alloc : Level → Bool) (addr : ℕ) :
    Stock c (biscuitOSTumap c alloc addr s) := by
  by_cases hmem : ∃ i ∈ s.inuseHead, s.vaddr i = addr
  · obtain ⟨i, hi, rfl⟩ := hmem
    rw [biscuitOSTumap_of_mem h hi]
    exact release_stock h alloc hi
  · push Not at hmem
    unfold biscuitOSTumap
    rw [tumapRounds_eq_self hmem]
    exact h

/-! ### Calls -/

/-- A result of `_tmap_prot` is the address of a vpage that was free and maps the physical page now. -/
def Maps (c : Config) (s : State) (phys : ℕ) (prot : Prot) (r : Option ℕ) (s' : State) : Prop :=
  ∀ addr, r = some addr → (∃ i ∈ s.freeHead, s.vaddr i = addr) ∧
    lookup c.l5 s'.pgd addr = some ⟨phys >>> PAGE_SHIFT, prot⟩

/-- What a call has to do. -/
def Answers (c : Config) (s : State) : Call → Option ℕ → State → Prop
  | .tmap phys, r, s' => Maps c s phys .kernel r s'
  | .tmapIo phys, r, s' => Maps c s phys .kernelIo r s'
  | .tumap addr, _, s' => (∀ i ∈ s.inuseHead, s.vaddr i ≠ addr) → s' = s

/-- **A correct run**: every call returns and answers, and the pool is in step before, between and after
the calls. Each call comes with what the allocator of page tables has memory for. -/
def Correct (c : Config) : State → List (Call × (Level → Bool)) → Prop
  | s, [] => InStep c s
  | s, (call, alloc) :: calls => InStep c s ∧
    ∃ r s', step c alloc s call = some (r, s') ∧ Answers c s call r s' ∧ Correct c s' calls

/-- A mapping is not given up, and no vpage comes back. -/
def Fine (c : Config) (alloc : Level → Bool) (s : State) : Call → Prop
  | .tmap _ | .tmapIo _ => ∀ i rest, s.freeHead = i :: rest → Mappable c.l5 alloc s.pgd (s.vaddr i)
  | .tumap addr => ∀ i ∈ s.inuseHead, s.vaddr i ≠ addr

def AllFine (c : Config) : State → List (Call × (Level → Bool)) → Prop
  | _, [] => True
  | s, (call, alloc) :: calls => Fine c alloc s call ∧
    ∀ r s', step c alloc s call = some (r, s') → AllFine c s' calls

theorem tmapProt_fine (h : InStep c s) (phys : ℕ) (prot : Prot)
    (hfine : ∀ i rest, s.freeHead = i :: rest → Mappable c.l5 alloc s.pgd (s.vaddr i)) :
    ∃ r s', tmapProt c alloc phys prot s = some (r, s') ∧ Maps c s phys prot r s' ∧ InStep c s' := by
  cases hfree : s.freeHead with
  | nil => exact ⟨none, s, tmapProt_nil hfree, fun _ h => (Option.some_ne_none _ h.symm).elim, h⟩
  | cons i rest =>
    have hi : i ∈ s.freeHead := hfree ▸ List.mem_cons_self
    obtain ⟨pgd', hmap, hset⟩ := (hfine i rest hfree).tmapMapping phys prot
    refine ⟨some (s.vaddr i), use s i pgd', ?_, ?_, ⟨use_stock h.toStock hi hset, fun j hj => ?_⟩⟩
    · rw [tmapProt_cons hfree, hmap]
      rfl
    · rintro addr ⟨⟩
      exact ⟨⟨i, hi, rfl⟩, descendAll_self hset⟩
    · have hne : j ≠ i := fun heq => (free_nodup h.toStock).not_mem_erase (heq ▸ hj)
      show Function.update s.inuse i true j = false
      rw [Function.update_of_ne hne]
      exact h.unused j (List.mem_of_mem_erase hj)

theorem fine_of_maps (htmap : tmapProt c alloc phys prot s = some (r, s')) (hmaps : Maps c s phys prot r s')
    (i : ℕ) (rest : List ℕ) (hfree : s.freeHead = i :: rest) : Mappable c.l5 alloc s.pgd (s.vaddr i) := by
  rw [tmapProt_cons hfree] at htmap
  obtain ⟨x, hmap, hx⟩ := Option.map_eq_some_iff.mp htmap
  cases hx
  refine mappable_of_maps hmap fun hnone => ?_
  have hset : lookup c.l5 x.2 (s.vaddr i) = _ := (hmaps _ rfl).2
  rw [hnone] at hset
  cases hset

/-- The step lemma. -/
theorem step_fine (h : InStep c s) (hfine : Fine c alloc s call) :
    ∃ r s', step c alloc s call = some (r, s') ∧ Answers c s call r s' ∧ InStep c s' := by
  cases call with
  | tmap phys => exact tmapProt_fine h phys .kernel hfine
  | tmapIo phys => exact tmapProt_fine h phys .kernelIo hfine
  | tumap addr =>
    have hself : biscuitOSTumap c alloc addr s = s := tumapRounds_eq_self hfine
    refine ⟨none, biscuitOSTumap c alloc addr s, rfl, fun _ => hself, ?_⟩
    rw [hself]
    exact h

/-- Any other call goes wrong. -/
theorem fine_of_step (h : InStep c s) (hstep : step c alloc s call = some (r, s'))
    (hanswers : Answers c s call r s') (h' : InStep c s') : Fine c alloc s call := by
  cases call with
  | tmap phys => exact fine_of_maps hstep hanswers
  | tmapIo phys => exact fine_of_maps hstep hanswers
  | tumap addr =>
    rintro i hi rfl
    have hs' : s' = release c alloc s i := by
      rw [← biscuitOSTumap_of_mem h.toStock hi]
      cases hstep
      rfl
    have hfree : i ∈ s'.freeHead := hs' ▸ List.mem_append_right _ (List.mem_singleton_self i)
    have hflag : s'.inuse i = true := hs' ▸ h.used i hi
    rw [h'.unused i hfree] at hflag
    cases hflag

theorem Correct.inStep : ∀ {calls : List (Call × (Level → Bool))} {s : State}, Correct c s calls → InStep c s
  | [], _, h => h
  | _ :: _, _, h => h.1

theorem correct_iff : ∀ (calls : List (Call × (Level → Bool))) {s : State}, InStep c s →
    (Correct c s calls ↔ AllFine c s calls)
  | [], s, h => iff_of_true h trivial
  | (call, alloc) :: calls, s, h => by
    constructor
    · rintro ⟨-, r, s', hstep, hanswers, hrest⟩
      refine ⟨fine_of_step h hstep hanswers hrest.inStep, fun r₁ s₁ hstep₁ => ?_⟩
      rw [hstep] at hstep₁
      cases hstep₁
      exact (correct_iff calls hrest.inStep).mp hrest
    · rintro ⟨hfine, hrest⟩
      obtain ⟨r, s', hstep, hanswers, h'⟩ := step_fine h hfine
      exact ⟨h, r, s', hstep, hanswers, (correct_iff calls h').mpr (hrest r s' hstep)⟩

/-- **The pool.** A run after `vpage_alloc_init` is correct if and only if every page of a gap got its
vpage, no mapping is given up at a bad entry or for want of a page table, and no vpage comes back. -/
theorem pool_correct_iff (c : Config) (kmem : ℕ → Bool) (calls : List (Call × (Level → Bool))) :
    Correct c (vpageAllocInit c kmem) calls ↔
      (∀ pfn, InGap c.pfnMapped pfn → kmem (c.va pfn) = true) ∧ AllFine c (vpageAllocInit c kmem) calls := by
  constructor
  · intro h
    exact ⟨(init_inStep c kmem).mp h.inStep, (correct_iff calls h.inStep).mp h⟩
  · rintro ⟨hkmem, hfine⟩
    exact (correct_iff calls ((init_inStep c kmem).mpr hkmem)).mpr hfine

/-- Two ranges with a page between them, under page tables without an entry. -/
def onePage : Config where
  l5 := false
  PAGE_OFFSET := 0xffff888000000000
  pfnMapped := [(0, 1), (2, 3)]
  pgd := fun _ => .table fun _ => .none
  aligned := by decide
  canonical := by decide
  sorted := by decide
  range := by decide
  direct := by decide
  folded _ _ := ⟨_, rfl⟩
  clear _ _ := rfl

theorem onePage_init : vpageAllocInit onePage (fun _ => true) =
    State.add ⟨0, fun _ => 0, fun _ => false, [], [], onePage.pgd⟩ 0xffff888000001000 := by
  unfold vpageAllocInit
  rw [vpageAllocInitLoop_eq]
  rfl

/-- The page is mapped and unmapped: its vpage is free again, with the flag set. -/
theorem unmapped_not_correct : ¬ ∀ (c : Config) (calls : List (Call × (Level → Bool))),
    Correct c (vpageAllocInit c fun _ => true) calls := by
  intro h
  have hrun := h onePage [(.tmap 0x10000000, fun _ => true), (.tumap 0xffff888000001000, fun _ => true)]
  obtain ⟨-, hall⟩ := (correct_iff _ hrun.inStep).mp hrun
  rw [onePage_init] at hall
  obtain ⟨hfine, -⟩ := hall (some 0xffff888000001000) _ rfl
  exact hfine 0 (List.mem_singleton_self 0) rfl

end HardStack.Tmap.Run
