import HardStack.Memblock.Model

/-! # Lists of regions and the sets they cover

`Apart g L`: the regions stand in increasing order, each at least `g` below the next. With `g = 0` they
are disjoint, with `g = 1` they are fully merged too. `fill` is what the inserting pass of
`memblock_add_range` makes of a list; `mergeFrom` closes the seams. -/

namespace HardStack.Memblock.Regions

open HardStack.Memblock.Model

/-- The addresses of a list of regions. -/
def covered (L : List Region) : Set ℕ := {x | ∃ r ∈ L, r.base ≤ x ∧ x < r.fin}

/-- The regions are in increasing order and `g` apart. -/
def Apart (g : ℕ) (L : List Region) : Prop := L.Pairwise fun a b => a.fin + g ≤ b.base

def total (L : List Region) : ℕ := (L.map Region.size).sum

@[simp] theorem mem_covered {L : List Region} {x : ℕ} :
    x ∈ covered L ↔ ∃ r ∈ L, r.base ≤ x ∧ x < r.fin := Iff.rfl

@[simp] theorem covered_nil : covered [] = ∅ := by
  ext x
  simp

theorem covered_cons (r : Region) (L : List Region) :
    covered (r :: L) = Set.Ico r.base r.fin ∪ covered L := by
  ext x
  simp

theorem covered_append (L M : List Region) : covered (L ++ M) = covered L ∪ covered M := by
  ext x
  simp [or_and_right, exists_or]

@[simp] theorem total_nil : total [] = 0 := rfl

@[simp] theorem total_cons (r : Region) (L : List Region) : total (r :: L) = r.size + total L := by
  simp [total]

@[simp] theorem total_append (L M : List Region) : total (L ++ M) = total L + total M := by
  simp [total]

theorem size_le_total {r : Region} {L : List Region} (h : r ∈ L) : r.size ≤ total L := by
  obtain ⟨A, B, rfl⟩ := List.append_of_mem h
  simp
  omega

/-! ### Filling the gaps of a range -/

/-- The regions with the parts of `[base, fin)` inserted that they leave uncovered. -/
def fill (fin flags : ℕ) : (base : ℕ) → List Region → List Region
  | base, [] => if base < fin then [⟨base, fin - base, flags⟩] else []
  | base, r :: rest =>
    if r.base ≥ fin then
      if base < fin then ⟨base, fin - base, flags⟩ :: r :: rest else r :: rest
    else if r.fin ≤ base then r :: fill fin flags base rest
    else if r.base > base then
      ⟨base, r.base - base, flags⟩ :: r :: fill fin flags (min r.fin fin) rest
    else r :: fill fin flags (min r.fin fin) rest

variable {fin flags : ℕ}

theorem sublist_fill : ∀ (base : ℕ) (L : List Region), L.Sublist (fill fin flags base L)
  | base, [] => List.nil_sublist _
  | base, r :: rest => by
    unfold fill
    split_ifs
    · exact List.sublist_cons_self _ _
    · exact List.Sublist.refl _
    · exact (sublist_fill base rest).cons_cons r
    · exact ((sublist_fill _ rest).cons_cons r).trans (List.sublist_cons_self _ _)
    · exact (sublist_fill _ rest).cons_cons r

/-- A range that meets no region is one new region. -/
theorem length_fill {base : ℕ} (hb : base < fin) : ∀ {L : List Region},
    (∀ r ∈ L, r.fin ≤ base ∨ fin ≤ r.base) → (fill fin flags base L).length = L.length + 1
  | [], _ => by
    unfold fill
    rw [if_pos hb]
    rfl
  | r :: rest, h => by
    unfold fill
    by_cases habove : r.base ≥ fin
    · rw [if_pos habove, if_pos hb]
      rfl
    · have hbelow : r.fin ≤ base := by
        rcases h r List.mem_cons_self with hr | hr
        · exact hr
        · omega
      rw [if_neg habove, if_pos hbelow, List.length_cons,
        length_fill hb fun x hx => h x (List.mem_cons_of_mem _ hx), List.length_cons]

/-- What is there is an old region or a part of the range. -/
theorem mem_fill {x : Region} : ∀ {base : ℕ} {L : List Region}, x ∈ fill fin flags base L →
    x ∈ L ∨ (base ≤ x.base ∧ 0 < x.size ∧ x.fin ≤ fin ∧ x.flags = flags)
  | base, [], h => by
    unfold fill at h
    split_ifs at h with hb
    · rw [List.mem_singleton] at h
      subst h
      exact Or.inr ⟨le_rfl, by dsimp only; omega, by unfold Region.fin; dsimp only; omega, rfl⟩
    · cases h
  | base, r :: rest, h => by
    unfold fill at h
    split_ifs at h with h1 h2 h3 h4
    · rcases List.mem_cons.mp h with rfl | h
      · exact Or.inr ⟨le_rfl, by dsimp only; omega, by unfold Region.fin; dsimp only; omega, rfl⟩
      · exact Or.inl h
    · exact Or.inl h
    · rcases List.mem_cons.mp h with rfl | h
      · exact Or.inl List.mem_cons_self
      · rcases mem_fill h with h | h
        · exact Or.inl (List.mem_cons_of_mem _ h)
        · exact Or.inr h
    · rcases List.mem_cons.mp h with rfl | h
      · exact Or.inr ⟨le_rfl, by dsimp only; omega, by unfold Region.fin; dsimp only; omega, rfl⟩
      rcases List.mem_cons.mp h with rfl | h
      · exact Or.inl List.mem_cons_self
      · rcases mem_fill h with h | ⟨hb, h⟩
        · exact Or.inl (List.mem_cons_of_mem _ h)
        · exact Or.inr ⟨by omega, h⟩
    · rcases List.mem_cons.mp h with rfl | h
      · exact Or.inl List.mem_cons_self
      · rcases mem_fill h with h | ⟨hb, hpos, hfin, hfl⟩
        · exact Or.inl (List.mem_cons_of_mem _ h)
        · have : x.fin = x.base + x.size := rfl
          exact Or.inr ⟨by omega, hpos, hfin, hfl⟩

/-- **Filling is the union.** -/
theorem covered_fill : ∀ (base : ℕ) (L : List Region),
    covered (fill fin flags base L) = covered L ∪ Set.Ico base fin
  | base, [] => by
    unfold fill
    split_ifs with hb
    · rw [covered_cons]
      unfold Region.fin
      dsimp only
      rw [Nat.add_sub_cancel' hb.le, covered_nil, Set.union_empty, Set.empty_union]
    · rw [Set.Ico_eq_empty hb, Set.union_empty]
  | base, r :: rest => by
    unfold fill
    split_ifs with h1 h2 h3 h4
    · rw [covered_cons]
      unfold Region.fin
      dsimp only
      rw [Nat.add_sub_cancel' h2.le, Set.union_comm]
    · rw [Set.Ico_eq_empty h2, Set.union_empty]
    · rw [covered_cons, covered_cons, covered_fill base rest, Set.union_assoc]
    · rw [covered_cons, covered_cons, covered_cons, covered_fill _ rest]
      ext x
      simp only [Set.mem_union, Set.mem_Ico, mem_covered]
      unfold Region.fin
      dsimp only
      unfold Region.fin at h3
      constructor
      · rintro (h | h | h | h)
        · exact Or.inr (by omega)
        · exact Or.inl (Or.inl h)
        · exact Or.inl (Or.inr h)
        · exact Or.inr (by omega)
      · rintro ((h | h) | h)
        · exact Or.inr (Or.inl h)
        · exact Or.inr (Or.inr (Or.inl h))
        · by_cases hx : x < r.base
          · exact Or.inl (by omega)
          · by_cases hy : x < r.base + r.size
            · exact Or.inr (Or.inl ⟨by omega, hy⟩)
            · exact Or.inr (Or.inr (Or.inr (by omega)))
    · rw [covered_cons, covered_cons, covered_fill _ rest]
      ext x
      simp only [Set.mem_union, Set.mem_Ico, mem_covered]
      unfold Region.fin
      unfold Region.fin at h3
      constructor
      · rintro (h | h | h)
        · exact Or.inl (Or.inl h)
        · exact Or.inl (Or.inr h)
        · exact Or.inr (by omega)
      · rintro ((h | h) | h)
        · exact Or.inl h
        · exact Or.inr (Or.inl h)
        · by_cases hy : x < r.base + r.size
          · exact Or.inl ⟨by omega, hy⟩
          · exact Or.inr (Or.inr (by omega))

theorem apart_cons {g : ℕ} {r : Region} {L : List Region} :
    Apart g (r :: L) ↔ (∀ x ∈ L, r.fin + g ≤ x.base) ∧ Apart g L := List.pairwise_cons

/-- Filling keeps disjoint regions disjoint. -/
theorem apart_fill : ∀ {base : ℕ} {L : List Region}, Apart 0 L → Apart 0 (fill fin flags base L)
  | base, [], _ => by
    unfold fill
    split_ifs
    · exact List.pairwise_singleton _ _
    · exact List.Pairwise.nil
  | base, r :: rest, h => by
    obtain ⟨hr, hrest⟩ := apart_cons.mp h
    -- what follows `r` after filling from `min r.fin fin` on is not below the end of `r`
    have hnext : ∀ x ∈ fill fin flags (min r.fin fin) rest, r.fin + 0 ≤ x.base := by
      intro x hx
      rcases mem_fill hx with hx | ⟨hb, hpos, hfin, -⟩
      · exact hr x hx
      · unfold Region.fin at hfin ⊢
        unfold Region.fin at hb
        omega
    unfold fill
    split_ifs with h1 h2 h3 h4
    · refine apart_cons.mpr ⟨fun x hx => ?_, h⟩
      rcases List.mem_cons.mp hx with rfl | hx
      · unfold Region.fin
        dsimp only
        omega
      · have := hr x hx
        unfold Region.fin at this ⊢
        dsimp only
        omega
    · exact h
    · refine apart_cons.mpr ⟨fun x hx => ?_, apart_fill hrest⟩
      rcases mem_fill hx with hx | ⟨hb, -⟩
      · exact hr x hx
      · omega
    · refine apart_cons.mpr ⟨fun x hx => ?_, apart_cons.mpr ⟨hnext, apart_fill hrest⟩⟩
      rcases List.mem_cons.mp hx with rfl | hx
      · unfold Region.fin
        dsimp only
        omega
      · have := hnext x hx
        unfold Region.fin at this ⊢
        dsimp only
        omega
    · exact apart_cons.mpr ⟨hnext, apart_fill hrest⟩

/-! ### Merging -/

/-- **Merging** disjoint regions never stops at `BUG`, and keeps the set, the sum and the bounds. -/
theorem mergeFrom_spec {g : ℕ} (hg : g ≤ 1) : ∀ (L : List Region) (this : Region),
    Apart 0 (this :: L) → (0 < g → ∀ r ∈ this :: L, r.flags = 0) →
    ∃ M, mergeFrom this L = some M ∧ Apart g M ∧ covered M = covered (this :: L) ∧
      total M = total (this :: L) ∧ M.length ≤ L.length + 1 ∧ M ≠ [] ∧
      (∀ x ∈ M, this.base ≤ x.base) ∧
      (∀ b, (∀ r ∈ this :: L, r.fin ≤ b) → ∀ x ∈ M, x.fin ≤ b) ∧
      ((∀ r ∈ this :: L, 0 < r.size) → ∀ x ∈ M, 0 < x.size) ∧
      (0 < g → ∀ r ∈ M, r.flags = 0)
  | [], this, h, hf => by
    refine ⟨[this], rfl, List.pairwise_singleton _ _, rfl, rfl, by simp, by simp, ?_, ?_, ?_, hf⟩
    · intro x hx
      rw [List.mem_singleton.mp hx]
    · exact fun b hb => hb
    · exact fun hpos => hpos
  | next :: rest, this, h, hf => by
    obtain ⟨hthis, hnext⟩ := apart_cons.mp h
    have hle : this.fin ≤ next.base := hthis next List.mem_cons_self
    unfold Region.fin at hle
    unfold mergeFrom
    split_ifs with hne hbug
    · omega
    · obtain ⟨M, hM, hap, hcov, htot, hlen, hnil, hbase, hfin, hpos, hflags⟩ :=
        mergeFrom_spec hg rest next hnext fun hg r hr => hf hg r (List.mem_cons_of_mem _ hr)
      refine ⟨this :: M, by rw [hM]; rfl, ?_, ?_, ?_, ?_, by simp, ?_, ?_, ?_, ?_⟩
      · refine apart_cons.mpr ⟨fun x hx => ?_, hap⟩
        have hx' := hbase x hx
        -- with equal flags the two regions do not touch
        have hsep : this.fin + g ≤ next.base := by
          unfold Region.fin
          rcases Nat.eq_zero_or_pos g with hz | hz
          · omega
          · have h1 := hf hz this List.mem_cons_self
            have h2 := hf hz next (by simp)
            rcases hne with hne | hne
            · omega
            · exact absurd (h1.trans h2.symm) hne
        omega
      · rw [covered_cons, hcov, ← covered_cons]
      · rw [total_cons, htot, total_cons this]
      · simp only [List.length_cons]
        omega
      · intro x hx
        rcases List.mem_cons.mp hx with rfl | hx
        · exact le_rfl
        · have := hbase x hx
          omega
      · intro b hb x hx
        rcases List.mem_cons.mp hx with rfl | hx
        · exact hb x List.mem_cons_self
        · exact hfin b (fun r hr => hb r (List.mem_cons_of_mem _ hr)) x hx
      · intro hp x hx
        rcases List.mem_cons.mp hx with rfl | hx
        · exact hp x List.mem_cons_self
        · exact hpos (fun r hr => hp r (List.mem_cons_of_mem _ hr)) x hx
      · intro hg r hr
        rcases List.mem_cons.mp hr with rfl | hr
        · exact hf hg r List.mem_cons_self
        · exact hflags hg r hr
    · have heq : this.base + this.size = next.base := by
        by_contra hno
        exact hne (Or.inl hno)
      obtain ⟨hn, hrest⟩ := apart_cons.mp hnext
      have hjoin : (Region.fin { this with size := this.size + next.size }) = next.fin := by
        unfold Region.fin
        dsimp only
        omega
      obtain ⟨M, hM, hap, hcov, htot, hlen, hnil, hbase, hfin, hpos, hflags⟩ :=
        mergeFrom_spec hg rest { this with size := this.size + next.size }
          (apart_cons.mpr ⟨fun x hx => by rw [hjoin]; exact hn x hx, hrest⟩) (by
            intro hg r hr
            rcases List.mem_cons.mp hr with rfl | hr
            · exact hf hg this List.mem_cons_self
            · exact hf hg r (by simp [hr]))
      refine ⟨M, hM, hap, ?_, ?_, ?_, hnil, hbase, ?_, ?_, hflags⟩
      · rw [hcov, covered_cons, covered_cons, covered_cons, hjoin, ← Set.union_assoc]
        congr 1
        ext x
        simp only [Set.mem_Ico, Set.mem_union]
        unfold Region.fin
        omega
      · rw [htot, total_cons, total_cons, total_cons]
        dsimp only
        omega
      · simp only [List.length_cons]
        omega
      · intro b hb
        refine hfin b fun r hr => ?_
        rcases List.mem_cons.mp hr with rfl | hr
        · rw [hjoin]
          exact hb next (by simp)
        · exact hb r (by simp [hr])
      · intro hp
        refine hpos fun r hr => ?_
        rcases List.mem_cons.mp hr with rfl | hr
        · have := hp this List.mem_cons_self
          dsimp only
          omega
        · exact hp r (by simp [hr])

end HardStack.Memblock.Regions
