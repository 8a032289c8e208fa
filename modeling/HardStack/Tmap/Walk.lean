import HardStack.Tmap.Model

/-! # Walks through the page tables

What `tmap_mapping` and `apply_to_page_range` do to the entry of an address, and that they leave the
entries of other pages as they are. Two pages of the direct mapping differ in an index of the walk. -/

namespace HardStack.Tmap.Walk

open HardStack.Tmap.Model

variable {α : Type} {ok : Bool} {fresh : α} {t t' : ℕ → Entry α} {i j : ℕ} {v w phys : ℕ} {prot : Prot}
  {l5 : Bool} {alloc : Level → Bool} {c : Config} {pgd pgd' : PgdTable}

/-! ### One level -/

/-- The walk gets through an entry to a table with the property. -/
def Through (ok : Bool) (fresh : α) (P : α → Prop) (t : ℕ → Entry α) (i : ℕ) : Prop :=
  match t i with
  | .none => ok = true ∧ P fresh
  | .bad => False
  | .table t' => P t'

theorem descend_isSome {f : α → Option α} :
    (descend ok fresh f t i).isSome = true ↔ Through ok fresh (fun a => (f a).isSome = true) t i := by
  unfold descend Through
  cases t i with
  | none =>
    cases ok with
    | false => simp
    | true => simp
  | bad => simp
  | table t' => simp

theorem descend_cases {f : α → Option α} (h : descend ok fresh f t i = some t') : ∃ a a',
    f a = some a' ∧ t' = Function.update t i (.table a') ∧ (t i = .table a ∨ t i = .none ∧ a = fresh) := by
  unfold descend at h
  cases hi : t i with
  | none =>
    rw [hi] at h
    dsimp only at h
    split_ifs at h
    obtain ⟨a', hf, rfl⟩ := Option.map_eq_some_iff.mp h
    exact ⟨fresh, a', hf, rfl, Or.inr ⟨rfl, rfl⟩⟩
  | bad =>
    rw [hi] at h
    cases h
  | table a =>
    rw [hi] at h
    obtain ⟨a', hf, rfl⟩ := Option.map_eq_some_iff.mp h
    exact ⟨a, a', hf, rfl, Or.inl rfl⟩

theorem see_update (g : α → Option Pte) (t : ℕ → Entry α) (i : ℕ) (a : α) :
    see g (Function.update t i (.table a)) i = g a := by
  unfold see
  rw [Function.update_self]

theorem see_update_of_ne (g : α → Option Pte) (t : ℕ → Entry α) (e : Entry α) (h : i ≠ j) :
    see g (Function.update t i e) j = see g t j := by
  unfold see
  rw [Function.update_of_ne (Ne.symm h)]

theorem descend_self {f : α → Option α} {g : α → Option Pte} {r : Option Pte}
    (hf : ∀ a a', f a = some a' → g a' = r) (h : descend ok fresh f t i = some t') : see g t' i = r := by
  obtain ⟨a, a', ha, rfl, -⟩ := descend_cases h
  rw [see_update, hf a a' ha]

theorem descend_other {f : α → Option α} {g : α → Option Pte} (hfresh : g fresh = none)
    (hf : i ≠ j ∨ ∀ a a', f a = some a' → g a' = g a) (h : descend ok fresh f t i = some t') :
    see g t' j = see g t j := by
  obtain ⟨a, a', ha, rfl, hi⟩ := descend_cases h
  by_cases hij : i = j
  · subst hij
    rw [see_update, hf.resolve_left (fun h => h rfl) a a' ha]
    unfold see
    rcases hi with hi | ⟨hi, rfl⟩
    · rw [hi]
    · rw [hi, hfresh]
  · exact see_update_of_ne g t _ hij

theorem fill_self {f : α → α} {g : α → Option Pte} (hf : ∀ a, g (f a) = none) :
    see g (fill ok fresh f t i) i = none := by
  unfold fill
  split
  · rw [see_update, hf]
  · split_ifs
    · rw [see_update, hf]
    · unfold see
      rw [Function.update_self]

theorem fill_other {f : α → α} {g : α → Option Pte} (hfresh : g fresh = none)
    (hf : i ≠ j ∨ ∀ a, g (f a) = g a) : see g (fill ok fresh f t i) j = see g t j := by
  by_cases hij : i = j
  · subst hij
    have hf := hf.resolve_left fun h => h rfl
    unfold fill
    split
    · next a hi =>
      rw [see_update, hf]
      unfold see
      rw [hi]
    · next hi =>
      have hnone : see g t i = none := by
        unfold see
        split
        · next a ha => exact absurd ha (hi a)
        · rfl
      rw [hnone]
      split_ifs
      · rw [see_update, hf, hfresh]
      · unfold see
        rw [Function.update_self]
  · unfold fill
    split
    · exact see_update_of_ne g t _ hij
    · split_ifs
      · exact see_update_of_ne g t _ hij
      · exact see_update_of_ne g t _ hij

/-! ### All levels -/

/-- **No entry is bad** on the walk to the address, and where a table is missing there is memory for
it. -/
def Mappable (l5 : Bool) (alloc : Level → Bool) (pgd : PgdTable) (addr : ℕ) : Prop :=
  let inPmd (pmd : PmdTable) := Through (alloc .pte) (fun _ => none) (fun _ => True) pmd (pmdIndex addr)
  let inPud (pud : PudTable) := Through (alloc .pmd) (fun _ => .none) inPmd pud (pudIndex addr)
  let inP4d (p4d : P4dTable) := Through (alloc .pud) (fun _ => .none) inPud p4d (p4dIndex l5 addr)
  Through (alloc .p4d) (fun _ => .none) inP4d pgd (pgdIndex l5 addr)

/-- The two addresses differ in an index. -/
def Apart (l5 : Bool) (v w : ℕ) : Prop :=
  pgdIndex l5 v ≠ pgdIndex l5 w ∨ p4dIndex l5 v ≠ p4dIndex l5 w ∨ pudIndex v ≠ pudIndex w ∨
    pmdIndex v ≠ pmdIndex w ∨ pteIndex v ≠ pteIndex w

/-- The walk of `tmap_mapping`, without its check for a bad entry. -/
def descendAll (l5 : Bool) (alloc : Level → Bool) (v : ℕ) (pte : Pte) (pgd : PgdTable) : Option PgdTable :=
  let setPte (t : PteTable) : Option PteTable := some (Function.update t (pteIndex v) (some pte))
  let inPmd (pmd : PmdTable) := descend (alloc .pte) (fun _ => none) setPte pmd (pmdIndex v)
  let inPud (pud : PudTable) := descend (alloc .pmd) (fun _ => .none) inPmd pud (pudIndex v)
  let inP4d (p4d : P4dTable) := descend (alloc .pud) (fun _ => .none) inPud p4d (p4dIndex l5 v)
  descend (alloc .p4d) (fun _ => .none) inP4d pgd (pgdIndex l5 v)

theorem descendAll_isSome {pte : Pte} :
    (descendAll l5 alloc v pte pgd).isSome = true ↔ Mappable l5 alloc pgd v := by
  unfold descendAll Mappable
  simp only [descend_isSome, Option.isSome_some]

theorem descendAll_self {pte : Pte} (h : descendAll l5 alloc v pte pgd = some pgd') :
    lookup l5 pgd' v = some pte := by
  unfold descendAll at h
  dsimp only at h
  refine descend_self (fun p4d p4d' h => ?_) h
  refine descend_self (fun pud pud' h => ?_) h
  refine descend_self (fun pmd pmd' h => ?_) h
  refine descend_self (fun t t' h => ?_) h
  cases h
  exact Function.update_self ..

theorem descendAll_other {pte : Pte} (h : descendAll l5 alloc v pte pgd = some pgd')
    (hvw : Apart l5 v w) : lookup l5 pgd' w = lookup l5 pgd w := by
  unfold descendAll at h
  dsimp only at h
  refine descend_other rfl (hvw.imp_right fun hvw p4d p4d' h => ?_) h
  refine descend_other rfl (hvw.imp_right fun hvw pud pud' h => ?_) h
  refine descend_other rfl (hvw.imp_right fun hvw pmd pmd' h => ?_) h
  refine descend_other rfl (hvw.imp_right fun hvw t t' h => ?_) h
  cases h
  exact Function.update_of_ne (Ne.symm hvw) ..

theorem applyToPage_self : lookup c.l5 (applyToPage c alloc v pgd) v = none :=
  fill_self fun _ => fill_self fun _ => fill_self fun _ => fill_self fun _ => Function.update_self ..

theorem applyToPage_other (hvw : Apart c.l5 v w) :
    lookup c.l5 (applyToPage c alloc v pgd) w = lookup c.l5 pgd w := by
  refine fill_other rfl (hvw.imp_right fun hvw p4d => ?_)
  refine fill_other rfl (hvw.imp_right fun hvw pud => ?_)
  refine fill_other rfl (hvw.imp_right fun hvw pmd => ?_)
  refine fill_other rfl (hvw.imp_right fun hvw t => ?_)
  exact Function.update_of_ne (Ne.symm hvw) ..

/-! ### `tmap_mapping` -/

/-- **`tmap_mapping`** either gives up at a bad entry of the `pgd` or sets the entry of the address. -/
theorem tmapMapping_cases {r : ℤ} (h : tmapMapping c alloc v phys prot pgd = some (r, pgd')) :
    (pgd (pgdIndex c.l5 v) = .bad ∧ pgd' = pgd) ∨
      descendAll c.l5 alloc v ⟨phys >>> PAGE_SHIFT, prot⟩ pgd = some pgd' := by
  unfold tmapMapping at h
  split at h
  · next hbad =>
    cases h
    exact Or.inl ⟨hbad, rfl⟩
  · right
    obtain ⟨pgd₁, h₁, h⟩ := Option.bind_eq_some_iff.mp h
    cases h
    exact h₁

theorem Mappable.ne_bad (h : Mappable l5 alloc pgd v) : pgd (pgdIndex l5 v) ≠ .bad := by
  intro hbad
  unfold Mappable Through at h
  rw [hbad] at h
  exact h

theorem lookup_bad (h : pgd (pgdIndex l5 v) = .bad) : lookup l5 pgd v = none := by
  unfold lookup see
  rw [h]

theorem Mappable.tmapMapping (h : Mappable c.l5 alloc pgd v) (phys : ℕ) (prot : Prot) : ∃ pgd',
    tmapMapping c alloc v phys prot pgd = some (0, pgd') ∧
      descendAll c.l5 alloc v ⟨phys >>> PAGE_SHIFT, prot⟩ pgd = some pgd' := by
  obtain ⟨pgd', hpgd'⟩ : ∃ pgd', descendAll c.l5 alloc v ⟨phys >>> PAGE_SHIFT, prot⟩ pgd = some pgd' :=
    Option.isSome_iff_exists.mp (descendAll_isSome.mpr h)
  refine ⟨pgd', ?_, hpgd'⟩
  have hbad := h.ne_bad
  unfold Model.tmapMapping
  split
  · next hb => exact absurd hb hbad
  · exact Option.bind_eq_some_iff.mpr ⟨pgd', hpgd', rfl⟩

/-- An entry that could not be set is clear. -/
theorem mappable_of_maps {r : ℤ} (h : tmapMapping c alloc v phys prot pgd = some (r, pgd'))
    (hset : lookup c.l5 pgd' v ≠ none) : Mappable c.l5 alloc pgd v := by
  rcases tmapMapping_cases h with ⟨hbad, rfl⟩ | hdescend
  · exact absurd (lookup_bad hbad) hset
  · exact descendAll_isSome.mp (Option.isSome_iff_exists.mpr ⟨_, hdescend⟩)

/-! ### The direct mapping -/

theorem va_eq (c : Config) (pfn : ℕ) : c.va pfn = c.PAGE_OFFSET + 4096 * pfn := by
  unfold Config.va PAGE_SHIFT
  rw [Nat.shiftLeft_eq]
  omega

theorem va_lt (hpfn : InGap c.pfnMapped i) : c.va i < 2 ^ 64 := by
  obtain ⟨k, r, r', -, hr', -, hlt⟩ := hpfn
  have hmem := List.mem_of_getElem? hr'
  have hdirect := c.direct r' hmem
  have hrange := c.range r' hmem
  unfold PAGE_SHIFT at hdirect
  rw [Nat.shiftLeft_eq] at hdirect
  rw [va_eq]
  omega

theorem va_apart (hi : InGap c.pfnMapped i) (hj : InGap c.pfnMapped j) (hij : i ≠ j) :
    Apart c.l5 (c.va i) (c.va j) := by
  have hi' := va_lt hi
  have hj' := va_lt hj
  have hcanonical := c.canonical
  have haligned := c.aligned
  rw [va_eq] at hi' hj'
  rw [va_eq, va_eq]
  by_contra h
  unfold Apart at h
  push Not at h
  obtain ⟨h1, h2, h3, h4, h5⟩ := h
  unfold PAGE_SIZE PAGE_SHIFT at haligned
  unfold pgdIndex PTRS_PER_TABLE at h1
  unfold p4dIndex PTRS_PER_TABLE at h2
  unfold pudIndex PTRS_PER_TABLE at h3
  unfold pmdIndex PTRS_PER_TABLE at h4
  unfold pteIndex PTRS_PER_TABLE at h5
  generalize c.PAGE_OFFSET = o at *
  cases hl5 : c.l5 with
  | false =>
    rw [hl5] at h1 h2 hcanonical
    simp only [Bool.false_eq_true, if_false] at h1 h2 hcanonical
    omega
  | true =>
    rw [hl5] at h1 h2 hcanonical
    simp only [if_true] at h1 h2 hcanonical
    omega

theorem va_injective (c : Config) : Function.Injective c.va := by
  intro i j h
  rw [va_eq, va_eq] at h
  omega

end HardStack.Tmap.Walk
