import HardStack.Tmap.Walk

/-! # The pool of vpages

`vpage_alloc_init` cuts the pool from the gaps, and lists, flags and page table entries are in step with
each other as long as a mapping is not given up and no vpage comes back: `BiscuitOS_tumap` leaves the flag
`inuse` set, and `_tmap_prot` returns the address after an error of `tmap_mapping`, too. Without the flags
of free vpages everything is in step after any `BiscuitOS_tumap` (`tumap_stock`). -/

namespace HardStack.Tmap.Pool

open HardStack.Tmap.Model HardStack.Tmap.Walk

variable {c : Config} {kmem : ℕ → Bool} {alloc : Level → Bool} {s s' : State} {L : List (ℕ × ℕ)}
  {i pfn addr phys : ℕ} {prot : Prot} {pgd' : PgdTable}

/-! ### Gaps -/

/-- The page frames of the gaps. -/
def gapPages : List (ℕ × ℕ) → List ℕ
  | r :: r' :: rest => List.range' r.2 (r'.1 - r.2) ++ gapPages (r' :: rest)
  | _ => []

theorem inGap_cons (r r' : ℕ × ℕ) (rest : List (ℕ × ℕ)) :
    InGap (r :: r' :: rest) pfn ↔ (r.2 ≤ pfn ∧ pfn < r'.1) ∨ InGap (r' :: rest) pfn := by
  constructor
  · rintro ⟨_ | i, q, q', hq, hq', h⟩
    · cases hq
      cases hq'
      exact Or.inl h
    · exact Or.inr ⟨i, q, q', hq, hq', h⟩
  · rintro (h | ⟨i, q, q', hq, hq', h⟩)
    · exact ⟨0, r, r', rfl, rfl, h⟩
    · exact ⟨i + 1, q, q', hq, hq', h⟩

theorem mem_gapPages : ∀ {L : List (ℕ × ℕ)}, pfn ∈ gapPages L ↔ InGap L pfn
  | [] => by
    refine ⟨fun h => absurd h List.not_mem_nil, ?_⟩
    rintro ⟨i, r, r', hr, -⟩
    simp at hr
  | [r] => by
    refine ⟨fun h => absurd h List.not_mem_nil, ?_⟩
    rintro ⟨i, r, r', -, hr', -⟩
    simp at hr'
  | r :: r' :: rest => by
    rw [inGap_cons, gapPages, List.mem_append, mem_gapPages, List.mem_range'_1]
    refine or_congr_left ?_
    omega

/-- The gaps are behind the first start. -/
theorem InGap.le {r : ℕ × ℕ} {rest : List (ℕ × ℕ)} (h : InGap (r :: rest) pfn)
    (hsorted : (r :: rest).Pairwise fun r r' => r.1 ≤ r'.1) (hrange : ∀ q ∈ r :: rest, q.1 ≤ q.2) :
    r.1 ≤ pfn := by
  obtain ⟨i, q, q', hq, -, hle, -⟩ := h
  have hmem := List.mem_of_getElem? hq
  have hq12 := hrange q hmem
  rcases List.mem_cons.mp hmem with rfl | hrest
  · omega
  · have := (List.pairwise_cons.mp hsorted).1 q hrest
    omega

theorem gapPages_nodup : ∀ {L : List (ℕ × ℕ)}, (L.Pairwise fun r r' => r.1 ≤ r'.1) →
    (∀ q ∈ L, q.1 ≤ q.2) → (gapPages L).Nodup
  | [], _, _ => List.nodup_nil
  | [_], _, _ => List.nodup_nil
  | r :: r' :: rest, hsorted, hrange => by
    have hsorted' := (List.pairwise_cons.mp hsorted).2
    have hrange' : ∀ q ∈ r' :: rest, q.1 ≤ q.2 := fun q hq => hrange q (List.mem_cons_of_mem _ hq)
    rw [gapPages, List.nodup_append]
    refine ⟨List.nodup_range', gapPages_nodup hsorted' hrange', fun a ha b hb => ?_⟩
    have hb := InGap.le (mem_gapPages.mp hb) hsorted' hrange'
    have ha := List.mem_range'_1.mp ha
    omega

/-! ### `vpage_alloc_init` -/

/-- The addresses of the vpages. -/
def addresses (s : State) : List ℕ := (List.range s.nr).map s.vaddr

/-- The addresses that get a vpage. -/
def taken (c : Config) (kmem : ℕ → Bool) : List (ℕ × ℕ) → List ℕ
  | r :: r' :: rest =>
    ((List.range' r.2 (r'.1 - r.2)).map c.va).takeWhile kmem ++ taken c kmem (r' :: rest)
  | _ => []

theorem PAGE_ALIGN_va (c : Config) (pfn : ℕ) : PAGE_ALIGN (c.va pfn) = c.va pfn := by
  have h := c.aligned
  unfold PAGE_ALIGN
  rw [va_eq]
  rw [show PAGE_SIZE = 4096 from rfl] at *
  omega

theorem PAGE_ALIGN_DOWN_va (c : Config) (pfn : ℕ) : PAGE_ALIGN_DOWN (c.va pfn) = c.va pfn := by
  have h := c.aligned
  unfold PAGE_ALIGN_DOWN
  rw [va_eq]
  rw [show PAGE_SIZE = 4096 from rfl] at *
  omega

theorem vpageInitLoop_eq (c : Config) (kmem : ℕ → Bool) : ∀ (n pfn : ℕ) (s : State),
    (vpageInitLoop kmem (c.va pfn) (c.va (pfn + n)) s).2 =
      (((List.range' pfn n).map c.va).takeWhile kmem).foldl State.add s
  | 0, pfn, s => by
    rw [Nat.add_zero, vpageInitLoop, if_neg (lt_irrefl _)]
    rfl
  | n + 1, pfn, s => by
    have hlt : c.va pfn < c.va (pfn + (n + 1)) := by
      rw [va_eq, va_eq]
      omega
    have hnext : c.va pfn + PAGE_SIZE = c.va (pfn + 1) := by
      rw [va_eq, va_eq, show PAGE_SIZE = 4096 from rfl]
      omega
    rw [vpageInitLoop, if_pos hlt, List.range'_succ, List.map_cons, List.takeWhile_cons]
    cases kmem (c.va pfn) with
    | false => rfl
    | true =>
      simp only [if_true, List.foldl_cons]
      rw [hnext, ← vpageInitLoop_eq c kmem n (pfn + 1) (s.add (c.va pfn)),
        show pfn + 1 + n = pfn + (n + 1) by omega]

theorem vpageAllocInitLoop_eq (c : Config) (kmem : ℕ → Bool) : ∀ (L : List (ℕ × ℕ)) (s : State),
    vpageAllocInitLoop c kmem L s = (taken c kmem L).foldl State.add s
  | [], _ => rfl
  | [_], _ => rfl
  | r :: r' :: rest, s => by
    rw [vpageAllocInitLoop, vpageAllocInitLoop_eq c kmem (r' :: rest), taken, List.foldl_append]
    refine congrArg (fun s => (taken c kmem (r' :: rest)).foldl State.add s) ?_
    split_ifs with h
    · obtain ⟨n, hn⟩ := Nat.exists_eq_add_of_lt h
      have hle : ¬ c.va r.2 > c.va r'.1 := by
        rw [va_eq, va_eq]
        omega
      unfold vpageInit
      dsimp only
      rw [PAGE_ALIGN_va, PAGE_ALIGN_DOWN_va, if_neg hle, ← vpageInitLoop_eq,
        show r.2 + (r'.1 - r.2) = r'.1 by omega]
    · rw [Nat.sub_eq_zero_of_le (by omega)]
      rfl

theorem addresses_add (s : State) (a : ℕ) : addresses (s.add a) = addresses s ++ [a] := by
  unfold addresses
  show (List.range (s.nr + 1)).map (Function.update s.vaddr s.nr a) = _
  rw [List.range_succ, List.map_append, List.map_singleton, Function.update_self]
  refine congrArg (· ++ [a]) (List.map_congr_left fun i hi => ?_)
  exact Function.update_of_ne (List.mem_range.mp hi).ne ..

/-- No vpage has been used. -/
structure Fresh (c : Config) (s : State) : Prop where
  inuseHead : s.inuseHead = []
  inuse : ∀ i, s.inuse i = false
  free : s.freeHead.Perm (List.range s.nr)
  pgd : s.pgd = c.pgd

theorem Fresh.add (h : Fresh c s) (a : ℕ) : Fresh c (s.add a) where
  inuseHead := h.inuseHead
  inuse i := by
    show Function.update s.inuse s.nr false i = false
    by_cases hi : i = s.nr
    · rw [hi, Function.update_self]
    · rw [Function.update_of_ne hi, h.inuse]
  free := by
    show (s.nr :: s.freeHead).Perm (List.range (s.nr + 1))
    rw [List.range_succ]
    exact (h.free.cons _).trans (List.perm_append_singleton _ _).symm
  pgd := h.pgd

theorem Fresh.foldl : ∀ (as : List ℕ) {s : State}, Fresh c s →
    Fresh c (as.foldl State.add s) ∧ addresses (as.foldl State.add s) = addresses s ++ as
  | [], s, h => ⟨h, (List.append_nil _).symm⟩
  | a :: as, s, h => by
    obtain ⟨hfresh, haddr⟩ := Fresh.foldl as (h.add a)
    refine ⟨hfresh, haddr.trans ?_⟩
    rw [addresses_add, List.append_assoc]
    rfl

theorem vpageAllocInit_spec (c : Config) (kmem : ℕ → Bool) :
    Fresh c (vpageAllocInit c kmem) ∧ addresses (vpageAllocInit c kmem) = taken c kmem c.pfnMapped := by
  unfold vpageAllocInit
  rw [vpageAllocInitLoop_eq]
  exact Fresh.foldl _ ⟨rfl, fun _ => rfl, List.Perm.refl _, rfl⟩

theorem taken_sublist (c : Config) (kmem : ℕ → Bool) : ∀ L, (taken c kmem L).Sublist ((gapPages L).map c.va)
  | [] => List.Sublist.refl _
  | [_] => List.Sublist.refl _
  | r :: r' :: rest => by
    rw [taken, gapPages, List.map_append]
    exact (List.takeWhile_sublist _).append (taken_sublist c kmem (r' :: rest))

theorem kmem_of_mem_taken {a : ℕ} : ∀ {L}, a ∈ taken c kmem L → kmem a = true
  | [], h => absurd h List.not_mem_nil
  | [_], h => absurd h List.not_mem_nil
  | r :: r' :: rest, h => by
    rw [taken] at h
    rcases List.mem_append.mp h with h | h
    · exact List.mem_takeWhile_imp h
    · exact kmem_of_mem_taken h

theorem taken_eq : ∀ {L}, (∀ pfn, InGap L pfn → kmem (c.va pfn) = true) →
    taken c kmem L = (gapPages L).map c.va
  | [], _ => rfl
  | [_], _ => rfl
  | r :: r' :: rest, h => by
    rw [taken, gapPages, List.map_append, taken_eq fun pfn hpfn => h pfn ((inGap_cons ..).mpr (Or.inr hpfn)),
      List.takeWhile_eq_self_iff.mpr]
    intro a ha
    obtain ⟨pfn, hpfn, rfl⟩ := List.mem_map.mp ha
    have hpfn := List.mem_range'_1.mp hpfn
    exact h pfn ((inGap_cons ..).mpr (Or.inl (by omega)))

/-! ### The pool -/

/-- **The pool**, without the flags of free vpages. -/
structure Stock (c : Config) (s : State) : Prop where
  nodup : (addresses s).Nodup
  covers : ∀ a, a ∈ addresses s ↔ ∃ pfn, InGap c.pfnMapped pfn ∧ c.va pfn = a
  lists : (s.freeHead ++ s.inuseHead).Perm (List.range s.nr)
  used : ∀ i ∈ s.inuseHead, s.inuse i = true
  clear : ∀ i ∈ s.freeHead, lookup c.l5 s.pgd (s.vaddr i) = none

/-- **Lists, flags and entries are in step.** -/
structure InStep (c : Config) (s : State) : Prop extends Stock c s where
  unused : ∀ i ∈ s.freeHead, s.inuse i = false

theorem init_inStep (c : Config) (kmem : ℕ → Bool) : InStep c (vpageAllocInit c kmem) ↔
    ∀ pfn, InGap c.pfnMapped pfn → kmem (c.va pfn) = true := by
  obtain ⟨hfresh, haddr⟩ := vpageAllocInit_spec c kmem
  have hnodup : ((gapPages c.pfnMapped).map c.va).Nodup :=
    (gapPages_nodup c.sorted c.range).map (va_injective c)
  have hgaps : ∀ a, a ∈ (gapPages c.pfnMapped).map c.va ↔ ∃ pfn, InGap c.pfnMapped pfn ∧ c.va pfn = a := by
    intro a
    simp only [List.mem_map, mem_gapPages]
  constructor
  · intro h pfn hpfn
    have hmem := (h.covers (c.va pfn)).mpr ⟨pfn, hpfn, rfl⟩
    rw [haddr] at hmem
    exact kmem_of_mem_taken hmem
  · intro h
    have heq := haddr.trans (taken_eq h)
    refine ⟨⟨heq ▸ hnodup, fun a => heq ▸ hgaps a, ?_, fun i hi => ?_, fun i hi => ?_⟩, fun i _ => hfresh.inuse i⟩
    · rw [hfresh.inuseHead, List.append_nil]
      exact hfresh.free
    · rw [hfresh.inuseHead] at hi
      exact absurd hi List.not_mem_nil
    · have hlt := List.mem_range.mp (hfresh.free.mem_iff.mp hi)
      have hmem : (vpageAllocInit c kmem).vaddr i ∈ addresses (vpageAllocInit c kmem) :=
        List.mem_map_of_mem (List.mem_range.mpr hlt)
      rw [heq] at hmem
      obtain ⟨pfn, hpfn, hva⟩ := (hgaps _).mp hmem
      rw [hfresh.pgd, ← hva]
      exact c.clear pfn hpfn

end HardStack.Tmap.Pool
