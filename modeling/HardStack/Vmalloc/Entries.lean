import HardStack.Vmalloc.Paging

/-! # What the page tables map

`entry t v` is the word that maps the page with number `v`, read the way the walks of the source find
it. The walks split a range at the boundaries of 2 MiB, and below the directory every level has one
entry for each such block; so a walk is a loop over blocks (`levelLoop_ends`), and in a block a loop
over words of one table. Unmapping clears the entries of the range and no other
(`vunmapPageRange_returns`), mapping writes them up to where it stops (`vmapPageRange_spec`).
Different blocks have different tables, so a word of a table belongs to one page. -/

namespace HardStack.Vmalloc.Entries

open HardStack.Lib.Word HardStack.Vmalloc.Model HardStack.Vmalloc.Paging

variable {t t₀ : Tables} {T : List ℕ} {u v w n fuel : ℕ}

/-- The entry for the page with number `v`. -/
def entry (t : Tables) (v : ℕ) : ℕ :=
  if t.dir (2 * (v / 512)) = 0 then 0 else t.pte (t.dir (2 * (v / 512)) / 4096) (v % 512)

/-- The word of the directory that points to the table in frame `f`. -/
def pmdValue (f : ℕ) : ℕ := f * 4096 + 0x851

/-- The tables in the frames `T` belong to different blocks. -/
structure TablesOk (t : Tables) (T : List ℕ) : Prop where
  nodup : T.Nodup
  used : ∀ f ∈ T, ∃ b, t.dir (2 * b) = pmdValue f
  present : ∀ b, t.dir (2 * b) ≠ 0 → ∃ f ∈ T, t.dir (2 * b) = pmdValue f
  apart : ∀ b c, t.dir (2 * b) ≠ 0 → t.dir (2 * b) = t.dir (2 * c) → b = c

/-! ### Words -/

theorem pmdValue_div (f : ℕ) : pmdValue f / 4096 = f := by unfold pmdValue; omega

theorem pmdValue_ne_zero (f : ℕ) : pmdValue f ≠ 0 := by unfold pmdValue; omega

theorem managed_lt {p : ℕ} (h : Managed p) : p < 2 ^ 20 ∧ p ≠ 0 := by
  have hb : PFN_OFFSET = 0x60000 ∧ totalramPages = 0x1000 := by decide
  unfold Managed at h
  omega

theorem pmdValue_eq {p : ℕ} (h : p < 2 ^ 20) :
    (p * 2 ^ PAGE_SHIFT + PTE_HWTABLE_OFF ||| _PAGE_KERNEL_TABLE) % 2 ^ 32 = pmdValue p := by
  have hor : p * 2 ^ PAGE_SHIFT + PTE_HWTABLE_OFF ||| _PAGE_KERNEL_TABLE =
      p * 2 ^ PAGE_SHIFT + PTE_HWTABLE_OFF + _PAGE_KERNEL_TABLE := by
    have hsplit : p * 2 ^ PAGE_SHIFT + PTE_HWTABLE_OFF = 2 ^ 11 * (2 * p + 1) := by
      unfold PAGE_SHIFT PTE_HWTABLE_OFF PTRS_PER_PTE
      omega
    rw [hsplit, Nat.two_pow_add_eq_or_of_lt (by decide)]
  have hk : _PAGE_KERNEL_TABLE = 0x51 := by decide
  rw [hor, hk]
  unfold PAGE_SHIFT PTE_HWTABLE_OFF PTRS_PER_PTE pmdValue
  omega

theorem pmdValue_not_bad (f : ℕ) : pmdValue f &&& 2 = 0 := by
  have h := Nat.and_two_pow (pmdValue f) 1
  have hbit : (pmdValue f).testBit 1 = false := by
    rw [Nat.testBit_eq_decide_div_mod_eq]
    unfold pmdValue
    simp only [decide_eq_false_iff_not]
    omega
  rw [hbit] at h
  simpa using h

theorem TablesOk.frame {b : ℕ} (h : TablesOk t T) (hb : t.dir (2 * b) ≠ 0) :
    t.dir (2 * b) / 4096 ∈ T ∧ t.dir (2 * b) = pmdValue (t.dir (2 * b) / 4096) := by
  obtain ⟨f, hf, hv⟩ := h.present b hb
  rw [hv, pmdValue_div]
  exact ⟨hf, rfl⟩

theorem TablesOk.frame_inj {b c : ℕ} (h : TablesOk t T) (hb : t.dir (2 * b) ≠ 0)
    (hc : t.dir (2 * c) ≠ 0) (hbc : t.dir (2 * b) / 4096 = t.dir (2 * c) / 4096) : b = c := by
  refine h.apart b c hb ?_
  rw [(h.frame hb).2, (h.frame hc).2, hbc]

theorem TablesOk.congr {t' : Tables} (h : TablesOk t T) (hd : t'.dir = t.dir) : TablesOk t' T := by
  obtain ⟨h1, h2, h3, h4⟩ := h
  exact ⟨h1, by rwa [hd], by rwa [hd], by rwa [hd]⟩

theorem pmdNoneOrClearBad_eq {b : ℕ} (h : TablesOk t T) :
    pmdNoneOrClearBad t (2 * b) = (t, pmdNone t (2 * b)) := by
  unfold pmdNoneOrClearBad
  by_cases h0 : t.dir (2 * b) = 0
  · simp [pmdNone, h0]
  · have hbad : pmdBad t (2 * b) = false := by
      unfold pmdBad
      rw [(h.frame h0).2, pmdValue_not_bad]
      rfl
    simp [pmdNone, h0, hbad]

/-! ### Blocks -/

/-- The end of the block of a page, or the end of the range if that comes first. -/
def blockEnd (u w : ℕ) : ℕ := min ((u / 512 + 1) * 512) w

theorem addrEnd_eq (hu : u < w) (hw : w < 2 ^ 20 - 512) :
    addrEnd (2 ^ 21) (4096 * u) (4096 * w) = 4096 * blockEnd u w := by
  have hsum : addW 32 (4096 * u) (2 ^ 21) = 4096 * u + 2 ^ 21 := Nat.mod_eq_of_lt (by omega)
  have hb : addW 32 (4096 * u) (2 ^ 21) &&& notW 32 (2 ^ 21 - 1) = 4096 * ((u / 512 + 1) * 512) := by
    rw [hsum, and_notW (k := 21) (by omega) (by omega)]
    omega
  unfold addrEnd blockEnd
  rw [hb]
  dsimp only
  split_ifs with h
  · rw [min_eq_left]
    omega
  · rw [min_eq_right]
    omega

theorem blockEnd_of_le (h : w ≤ (u / 512 + 1) * 512) : blockEnd u w = w := min_eq_right h

/-- A level that has one entry for the range. -/
theorem levelLoop_one {S : Type} {next : ℕ → ℕ → ℕ} {stride p addr stop : ℕ}
    {body : S → ℕ → ℕ → ℕ → Option (S × ℤ)} {s : S} (h : next addr stop = stop) :
    levelLoop next stride body (n + 1) s p addr stop = body s p addr stop := by
  rw [levelLoop, h]
  rcases body s p addr stop with _ | ⟨s', err⟩
  · rfl
  · by_cases he : err = 0
    · simp [he]
    · simp [he]

/-- How a walk may end: without a result, if that is allowed; without an error; with a negative
one. -/
def Ends {S : Type} (ret : Prop) (P E : S → Prop) : Option (S × ℤ) → Prop
  | none => ret
  | some (s, err) => (err = 0 → P s) ∧ (err ≠ 0 → err < 0 ∧ E s)

/-- The same for a walk without errors. -/
def Returns {S : Type} (ret : Prop) (P : S → Prop) : Option S → Prop
  | none => ret
  | some s => P s

theorem Returns.imp {S : Type} {ret : Prop} {P Q : S → Prop} {r : Option S} (h : Returns ret P r)
    (hPQ : ∀ s, P s → Q s) : Returns ret Q r := by
  rcases r with _ | s
  · exact h
  · exact hPQ s h

/-- **The loop over the blocks** of a range, from the page `u` on. -/
theorem levelLoop_ends {S : Type} {body : S → ℕ → ℕ → ℕ → Option (S × ℤ)} {I : ℕ → S → Prop}
    {E : S → Prop} {ret : Prop} (hw : w < 2 ^ 20 - 512)
    (hbody : ∀ s u w', I u s → u < w' → w' ≤ w → w' ≤ (u / 512 + 1) * 512 →
      Ends ret (I w') E (body s (2 * (u / 512)) (4096 * u) (4096 * w'))) : ∀ {n u : ℕ} {s : S},
    (ret ∨ w - u ≤ n) → u < w → I u s →
    Ends ret (I w) E (levelLoop (addrEnd (2 ^ 21)) 2 body n s (2 * (u / 512)) (4096 * u) (4096 * w))
  | 0, u, s, hn, hu, _ => hn.resolve_right (by omega)
  | n + 1, u, s, hn, hu, hI => by
    rw [levelLoop, addrEnd_eq hu hw]
    have hlt : u < blockEnd u w := by
      unfold blockEnd
      omega
    have h := hbody s u (blockEnd u w) hI hlt (min_le_right _ _) (min_le_left _ _)
    generalize body s (2 * (u / 512)) (4096 * u) (4096 * blockEnd u w) = r at h ⊢
    rcases r with _ | ⟨s', err⟩
    · exact h
    · simp only [Option.bind_eq_bind, Option.bind_some]
      by_cases he : err = 0
      · rw [if_neg (by simpa using he)]
        by_cases hend : blockEnd u w = w
        · rw [if_neg (not_not.mpr (by rw [hend]))]
          refine ⟨fun _ => ?_, fun h0 => absurd rfl h0⟩
          rw [← hend]
          exact h.1 he
        · -- the next block starts at the boundary
          rw [if_pos (by omega)]
          have hb : blockEnd u w = (u / 512 + 1) * 512 := by
            unfold blockEnd at hend ⊢
            omega
          have hlt' : blockEnd u w < w := by
            unfold blockEnd at hend ⊢
            omega
          have hp : 2 * (u / 512) + 2 = 2 * (blockEnd u w / 512) := by
            rw [hb]
            omega
          rw [hp]
          exact levelLoop_ends hw hbody (hn.imp_right fun h => by omega) hlt' (h.1 he)
      · rw [if_pos he]
        exact ⟨fun h0 => absurd h0 he, fun _ => h.2 he⟩

/-- The levels between the directory and the tables have one entry for a range in one block. -/
theorem one_entry {S : Type} {stride : ℕ} {body : S → ℕ → ℕ → ℕ → Option (S × ℤ)} {s : S} {p : ℕ}
    (hu : u < w) (hw : w < 2 ^ 20 - 512) (hb : w ≤ (u / 512 + 1) * 512) :
    levelLoop (addrEnd (2 ^ 21)) stride body (n + 1) s p (4096 * u) (4096 * w) =
      body s p (4096 * u) (4096 * w) :=
  levelLoop_one (by rw [addrEnd_eq hu hw, blockEnd_of_le hb])

theorem pgdOffsetK_eq (u : ℕ) : pgdOffsetK (4096 * u) = 2 * (u / 512) := by
  unfold pgdOffsetK PGDIR_SHIFT
  omega

theorem pteOffsetKernel_eq (t : Tables) (p u : ℕ) :
    pteOffsetKernel t p (4096 * u) = (t.dir p / 4096, u % 512) := by
  unfold pteOffsetKernel PAGE_SHIFT PTRS_PER_PTE
  rw [show 4096 * u / 2 ^ 12 = u by omega]
  rfl

theorem addW_page (hu : u + 1 < 2 ^ 20) : addW 32 (4096 * u) PAGE_SIZE = 4096 * (u + 1) := by
  unfold addW PAGE_SIZE PAGE_SHIFT
  omega

theorem entry_of_none (h : t.dir (2 * (v / 512)) = 0) : entry t v = 0 := if_pos h

theorem entry_of_some (h : t.dir (2 * (v / 512)) ≠ 0) :
    entry t v = t.pte (t.dir (2 * (v / 512)) / 4096) (v % 512) := if_neg h

/-- Writing the word of a page leaves the entries of all others. -/
theorem entry_setPte (h : TablesOk t T) (hu : t.dir (2 * (u / 512)) ≠ 0) (x : ℕ) :
    entry (setPte t (t.dir (2 * (u / 512)) / 4096, u % 512) x) v =
      if v = u then x else entry t v := by
  unfold entry setPte
  dsimp only
  by_cases hvu : v = u
  · subst hvu
    rw [if_neg hu, if_pos rfl, Function.update_self, Function.update_self]
  · rw [if_neg hvu]
    by_cases h0 : t.dir (2 * (v / 512)) = 0
    · rw [if_pos h0, if_pos h0]
    · rw [if_neg h0, if_neg h0]
      by_cases hf : t.dir (2 * (v / 512)) / 4096 = t.dir (2 * (u / 512)) / 4096
      · have hb := h.frame_inj h0 hu hf
        rw [hf, Function.update_self, Function.update_of_ne (by omega)]
      · rw [Function.update_of_ne hf]

/-! ### Unmapping -/

/-- The entries from `u` up to `w` are cleared. -/
structure Cleared (t₀ : Tables) (u w : ℕ) (t : Tables) : Prop where
  dir : t.dir = t₀.dir
  entry : ∀ v, entry t v = if u ≤ v ∧ v < w then 0 else entry t₀ v

theorem Cleared.refl (t : Tables) (u : ℕ) : Cleared t u u t :=
  ⟨rfl, fun v => (if_neg (by omega)).symm⟩

theorem Cleared.step {u₀ : ℕ} (h : Cleared t₀ u₀ u t) (hu : u₀ ≤ u) {t' : Tables}
    (hd : t'.dir = t.dir) {w : ℕ} (huw : u ≤ w)
    (he : ∀ v, Entries.entry t' v = if u ≤ v ∧ v < w then 0 else Entries.entry t v) :
    Cleared t₀ u₀ w t' := by
  refine ⟨hd.trans h.dir, fun v => ?_⟩
  rw [he, h.entry]
  by_cases h1 : u ≤ v ∧ v < w
  · rw [if_pos h1, if_pos (by omega)]
  · rw [if_neg h1]
    by_cases h2 : u₀ ≤ v ∧ v < u
    · rw [if_pos h2, if_pos (by omega)]
    · rw [if_neg h2, if_neg (by omega)]

theorem ptepGetAndClear_spec (h : TablesOk t T) (hu : t.dir (2 * (u / 512)) ≠ 0) :
    Cleared t u (u + 1) (ptepGetAndClear t (t.dir (2 * (u / 512)) / 4096, u % 512)) := by
  have hone : ∀ v, (u ≤ v ∧ v < u + 1) ↔ v = u := fun v => by omega
  unfold ptepGetAndClear
  split_ifs with h0
  · refine ⟨rfl, fun v => ?_⟩
    rw [entry_setPte h hu]
    simp only [hone]
  · refine ⟨rfl, fun v => ?_⟩
    simp only [hone]
    split_ifs with hv
    · subst hv
      unfold entry
      rw [if_neg hu]
      simpa using h0
    · rfl

theorem vunmapPteLoop_returns {ret : Prop} {b : ℕ} (hw : w < 2 ^ 20 - 512)
    (hb : w ≤ (b + 1) * 512) : ∀ {n u : ℕ} {t : Tables}, TablesOk t T → t.dir (2 * b) ≠ 0 →
    u / 512 = b → u < w → (ret ∨ w - u ≤ n) → Returns ret (Cleared t u w)
      (vunmapPteLoop n t (t.dir (2 * b) / 4096, u % 512) (4096 * u) (4096 * w)) := by
  intro n
  induction n with
  | zero => exact fun _ _ _ hu hn => hn.resolve_right (by omega)
  | succ n ih =>
    intro u t ht hne hub hu hn
    subst hub
    have hc := ptepGetAndClear_spec ht hne
    rw [vunmapPteLoop]
    dsimp only
    rw [addW_page (by omega)]
    by_cases hend : u + 1 = w
    · rw [if_neg (not_not.mpr (by rw [hend])), ← hend]
      exact hc
    · rw [if_pos (by omega), show u % 512 + 1 = (u + 1) % 512 by omega]
      set t₁ := ptepGetAndClear t (t.dir (2 * (u / 512)) / 4096, u % 512) with ht₁
      have hrec := ih (u := u + 1) (t := t₁) (ht.congr hc.dir) (by rwa [hc.dir]) (by omega)
        (by omega) (hn.imp_right fun h => by omega)
      rw [hc.dir] at hrec
      exact hrec.imp fun t' hc' => hc.step (by omega) hc'.dir (by omega) hc'.entry

theorem vunmapPmd_ends {ret : Prop} {E : Tables → Prop} (ht : TablesOk t T) (hu : u < w)
    (hw : w < 2 ^ 20 - 512) (hb : w ≤ (u / 512 + 1) * 512) (hf : ret ∨ w - u ≤ fuel) :
    Ends ret (Cleared t u w) E (vunmapPmd fuel t (2 * (u / 512)) (4096 * u) (4096 * w)) := by
  unfold vunmapPmd
  rw [pmdNoneOrClearBad_eq ht]
  dsimp only
  by_cases h0 : t.dir (2 * (u / 512)) = 0
  · rw [if_pos (by simp [pmdNone, h0])]
    refine ⟨fun _ => ⟨rfl, fun v => ?_⟩, fun h => absurd rfl h⟩
    split_ifs with hv
    · have hvb : v / 512 = u / 512 := by omega
      exact entry_of_none (by rw [hvb]; exact h0)
    · rfl
  · rw [if_neg (by simp [pmdNone, h0])]
    unfold vunmapPteRange
    rw [pteOffsetKernel_eq]
    have h := vunmapPteLoop_returns (b := u / 512) hw hb ht h0 rfl hu hf
    generalize vunmapPteLoop fuel t _ _ _ = r at h ⊢
    rcases r with _ | t'
    · exact h
    · exact ⟨fun _ => h, fun h0 => absurd rfl h0⟩

/-- **Unmapping** a range of pages clears its entries and no others. -/
theorem vunmapPageRange_returns {ret : Prop} (ht : TablesOk t T) (hu : u < w)
    (hw : w < 2 ^ 20 - 512) (hf : ret ∨ w - u < fuel) :
    Returns ret (Cleared t u w) (vunmapPageRange fuel t (4096 * u) (4096 * w)) := by
  have h := @levelLoop_ends w Tables (vunmapPudRange fuel)
    (fun x s => u ≤ x ∧ Cleared t u x s) (fun _ => False) ret hw
    (fun s x w' hI hxw hw' hblock => ?_) fuel u _ (hf.imp_right fun h => by omega) hu
    ⟨le_rfl, Cleared.refl t u⟩
  · unfold vunmapPageRange
    rw [if_neg (by omega), pgdOffsetK_eq]
    show Returns ret _ (Option.map Prod.fst
      (levelLoop (addrEnd (2 ^ 21)) 2 (vunmapPudRange fuel) fuel t _ _ _))
    generalize levelLoop (addrEnd (2 ^ 21)) 2 (vunmapPudRange fuel) fuel t (2 * (u / 512))
      (4096 * u) (4096 * w) = r at h ⊢
    rcases r with _ | ⟨t', err⟩
    · exact h
    · by_cases he : err = 0
      · exact (h.1 he).2
      · exact absurd (h.2 he).2 id
  · obtain ⟨hx, hc⟩ := hI
    obtain hfuel | ⟨k, rfl⟩ : fuel = 0 ∨ ∃ k, fuel = k + 1 := by
      rcases fuel with _ | k
      · exact Or.inl rfl
      · exact Or.inr ⟨k, rfl⟩
    · subst hfuel
      exact hf.resolve_right (by omega)
    · show Ends ret _ _ (levelLoop (addrEnd (2 ^ 21)) 2 (levelLoop (addrEnd (2 ^ 21)) 1
        (vunmapPmd (k + 1)) (k + 1)) (k + 1) s _ _ _)
      rw [one_entry hxw (by omega) hblock, one_entry hxw (by omega) hblock]
      have hp := @vunmapPmd_ends _ _ _ _ (k + 1) ret (fun _ => False)
        (ht.congr hc.dir) hxw (by omega) hblock (hf.imp_right fun h => by omega)
      generalize vunmapPmd (k + 1) s _ _ _ = r at hp ⊢
      rcases r with _ | ⟨s', err⟩
      · exact hp
      · exact ⟨fun he => ⟨by omega, hc.step hx (hp.1 he).dir (by omega) (hp.1 he).entry⟩, hp.2⟩

/-! ### Mapping -/

/-- The frames `N` have been taken for tables, and nothing else has happened in the allocators. -/
structure Grown (h₀ h : Heap) (N : List ℕ) : Prop where
  pages : h.livePages.Perm (N ++ h₀.livePages)
  nodup : h₀.livePages.Nodup → h.livePages.Nodup
  liveObjs : h.liveObjs = h₀.liveObjs

/-- The pages of the array have been mapped from `u₀` up to `u`. -/
structure Mapped (prot : ℕ) (page : ℕ → ℕ) (t₀ : Tables) (h₀ : Heap) (T : List ℕ) (u₀ u : ℕ)
    (w : Walk) : Prop where
  tables : ∃ N, TablesOk w.tables (N ++ T) ∧ Grown h₀ w.heap N
  entry : ∀ v, entry w.tables v =
    if u₀ ≤ v ∧ v < u then mkPte (page (v - u₀)) prot else Entries.entry t₀ v
  nr : w.nr + u₀ = u

/-- A result of the page allocator. -/
theorem allocPage_cases {h h' : Heap} {p : ℕ} (heq : allocPage h = some (p, h')) :
    (p = 0 ∧ h'.livePages = h.livePages ∨
      Managed p ∧ p ∉ h.livePages ∧ h'.livePages = p :: h.livePages) ∧
    h'.liveObjs = h.liveObjs := by
  unfold allocPage at heq
  rcases hans : h.pageAnswers with _ | ⟨q, rest⟩
  · simp [hans] at heq
  · simp only [hans] at heq
    split_ifs at heq with h0 hq
    · obtain ⟨rfl, rfl⟩ := Prod.mk.inj (Option.some.inj heq.symm)
      exact ⟨Or.inl ⟨rfl, rfl⟩, rfl⟩
    · obtain ⟨rfl, rfl⟩ := Prod.mk.inj (Option.some.inj heq.symm)
      exact ⟨Or.inr ⟨hq.1, hq.2, rfl⟩, rfl⟩

/-- A cleared table for a block without one changes no entry. -/
theorem newTable_spec {b p : ℕ} (t' : Tables) (h : TablesOk t T) (h0 : t.dir (2 * b) = 0)
    (hp : p ∉ T) (hdir : t'.dir = Function.update t.dir (2 * b) (pmdValue p))
    (hpte : t'.pte = Function.update t.pte p fun _ => 0) :
    TablesOk t' (p :: T) ∧ ∀ v, entry t' v = entry t v := by
  have hself : t'.dir (2 * b) = pmdValue p := by rw [hdir, Function.update_self]
  have hoff : ∀ c, c ≠ b → t'.dir (2 * c) = t.dir (2 * c) := fun c hc => by
    rw [hdir, Function.update_of_ne (by omega)]
  have hpne : ∀ c, t.dir (2 * c) ≠ 0 → t.dir (2 * c) ≠ pmdValue p := by
    intro c hc heq
    obtain ⟨hf, -⟩ := h.frame hc
    rw [heq, pmdValue_div] at hf
    exact hp hf
  refine ⟨⟨List.nodup_cons.mpr ⟨hp, h.nodup⟩, ?_, ?_, ?_⟩, fun v => ?_⟩
  · intro f hf
    rcases List.mem_cons.mp hf with rfl | hf
    · exact ⟨b, hself⟩
    · obtain ⟨c, hc⟩ := h.used f hf
      have hcb : c ≠ b := by
        rintro rfl
        exact pmdValue_ne_zero f (hc.symm.trans h0)
      exact ⟨c, by rw [hoff c hcb, hc]⟩
  · intro c hc
    by_cases hcb : c = b
    · subst hcb
      exact ⟨p, List.mem_cons_self, hself⟩
    · rw [hoff c hcb] at hc ⊢
      obtain ⟨f, hf, hv⟩ := h.present c hc
      exact ⟨f, List.mem_cons_of_mem _ hf, hv⟩
  · intro c d hc hcd
    by_cases hcb : c = b <;> by_cases hdb : d = b
    · exact hcb.trans hdb.symm
    · rw [hcb, hself, hoff d hdb] at hcd
      exact absurd hcd.symm (hpne d (by rw [← hcd]; exact pmdValue_ne_zero p))
    · rw [hdb, hself, hoff c hcb] at hcd
      rw [hoff c hcb] at hc
      exact absurd hcd (hpne c hc)
    · rw [hoff c hcb, hoff d hdb] at hcd
      rw [hoff c hcb] at hc
      exact h.apart c d hc hcd
  · by_cases hvb : v / 512 = b
    · rw [entry_of_none (t := t) (by rw [hvb]; exact h0),
        entry_of_some (by rw [hvb, hself]; exact pmdValue_ne_zero p), hvb, hself, pmdValue_div, hpte,
        Function.update_self]
    · by_cases hd : t.dir (2 * (v / 512)) = 0
      · rw [entry_of_none hd, entry_of_none (by rw [hoff _ hvb]; exact hd)]
      · have hne : t.dir (2 * (v / 512)) / 4096 ≠ p := fun he => hp (he ▸ (h.frame hd).1)
        rw [entry_of_some hd, entry_of_some (by rw [hoff _ hvb]; exact hd), hoff _ hvb, hpte,
          Function.update_of_ne hne]

section

variable {prot : ℕ} {page : ℕ → ℕ} {h₀ : Heap} {u₀ : ℕ} {s s' : Walk} {err : ℤ}

theorem pteAllocKernel_spec {pte : Option (ℕ × ℕ)} (hT : ∀ f ∈ T, f ∈ h₀.livePages)
    (h : Mapped prot page t₀ h₀ T u₀ u s)
    (heq : pteAllocKernel s (2 * (u / 512)) (4096 * u) = some (s', pte)) :
    Mapped prot page t₀ h₀ T u₀ u s' ∧ ∀ q, pte = some q →
      s'.tables.dir (2 * (u / 512)) ≠ 0 ∧
        q = (s'.tables.dir (2 * (u / 512)) / 4096, u % 512) := by
  obtain ⟨⟨N, htab, hgrown⟩, hentry, hnr⟩ := h
  unfold pteAllocKernel at heq
  split_ifs at heq with h0
  · simp only [pmdNone, decide_eq_true_eq] at h0
    simp only [pteAllocNew, Option.bind_eq_bind, Option.bind_eq_some_iff] at heq
    obtain ⟨⟨w₁, e⟩, ⟨⟨p, heap⟩, hp, hw₁⟩, hres⟩ := heq
    obtain ⟨hcase, ho⟩ := allocPage_cases hp
    have hlive : ∀ f ∈ N ++ T, f ∈ s.heap.livePages := by
      intro f hf
      rw [hgrown.pages.mem_iff]
      rcases List.mem_append.mp hf with hf | hf
      · exact List.mem_append_left _ hf
      · exact List.mem_append_right _ (hT f hf)
    dsimp only at hw₁
    rcases hcase with ⟨rfl, hl⟩ | ⟨hm, hfresh, hl⟩
    · rw [if_pos rfl] at hw₁
      obtain ⟨rfl, rfl⟩ := Prod.mk.inj (Option.some.inj hw₁.symm)
      obtain ⟨rfl, rfl⟩ := Prod.mk.inj (Option.some.inj hres.symm)
      refine ⟨⟨⟨N, htab, ⟨hl ▸ hgrown.pages, hl ▸ hgrown.nodup, ho.trans hgrown.liveObjs⟩⟩, hentry,
        hnr⟩, fun q hq => ?_⟩
      simp [ENOMEM] at hq
    · obtain ⟨hlt, hpne⟩ := managed_lt hm
      rw [if_neg hpne, pmdValue_eq hlt] at hw₁
      obtain ⟨rfl, rfl⟩ := Prod.mk.inj (Option.some.inj hw₁.symm)
      obtain ⟨rfl, rfl⟩ := Prod.mk.inj (Option.some.inj hres.symm)
      obtain ⟨htab', hent'⟩ := newTable_spec
        ⟨Function.update s.tables.dir (2 * (u / 512)) (pmdValue p),
          Function.update s.tables.pte p fun _ => 0⟩
        htab h0 (fun hx => hfresh (hlive p hx)) rfl rfl
      refine ⟨⟨⟨p :: N, htab', ⟨?_, fun h0 => ?_, ho.trans hgrown.liveObjs⟩⟩,
        fun v => (hent' v).trans (hentry v), hnr⟩, fun q hq => ?_⟩
      · show heap.livePages.Perm _
        rw [hl]
        exact hgrown.pages.cons p
      · show heap.livePages.Nodup
        rw [hl, List.nodup_cons]
        exact ⟨hfresh, hgrown.nodup h0⟩
      · rw [if_neg (by simp), Option.some.injEq, pteOffsetKernel_eq] at hq
        refine ⟨?_, hq.symm⟩
        show Function.update s.tables.dir (2 * (u / 512)) (pmdValue p) (2 * (u / 512)) ≠ 0
        rw [Function.update_self]
        exact pmdValue_ne_zero p
  · obtain ⟨rfl, rfl⟩ := Prod.mk.inj (Option.some.inj heq.symm)
    refine ⟨⟨⟨N, htab, hgrown⟩, hentry, hnr⟩, fun q hq => ?_⟩
    rw [Option.some.injEq, pteOffsetKernel_eq] at hq
    exact ⟨by simpa [pmdNone] using h0, hq.symm⟩

/-- Mapping one more page. -/
theorem Mapped.setPte (h : Mapped prot page t₀ h₀ T u₀ u s)
    (hne : s.tables.dir (2 * (u / 512)) ≠ 0) : Mapped prot page t₀ h₀ T u₀ (u + 1)
      { s with
        tables := setPte s.tables (s.tables.dir (2 * (u / 512)) / 4096, u % 512)
          (mkPte (page s.nr) prot)
        nr := s.nr + 1 } := by
  obtain ⟨⟨N, htab, hgrown⟩, hentry, hnr⟩ := h
  refine ⟨⟨N, htab.congr rfl, hgrown⟩, fun v => ?_, by dsimp only; omega⟩
  dsimp only
  rw [entry_setPte htab hne, hentry]
  by_cases hv : v = u
  · rw [if_pos hv, if_pos (by omega), show v - u₀ = s.nr by omega]
  · rw [if_neg hv]
    by_cases h1 : u₀ ≤ v ∧ v < u
    · rw [if_pos h1, if_pos (by omega)]
    · rw [if_neg h1, if_neg (by omega)]

/-- Where the mapping stops with an error, it has mapped the pages up to some page of the range. -/
def Stopped (prot : ℕ) (page : ℕ → ℕ) (t₀ : Tables) (h₀ : Heap) (T : List ℕ) (u₀ w : ℕ)
    (s : Walk) : Prop :=
  ∃ u, u ≤ w ∧ Mapped prot page t₀ h₀ T u₀ u s

theorem vmapPteLoop_ends {b stop : ℕ} (hw : w < 2 ^ 20 - 512) (hb : w ≤ (b + 1) * 512)
    (hstop : w ≤ stop) : ∀ {n u : ℕ} {s : Walk}, Mapped prot page t₀ h₀ T u₀ u s →
    s.tables.dir (2 * b) ≠ 0 → u / 512 = b → u < w →
    Ends True (Mapped prot page t₀ h₀ T u₀ w) (Stopped prot page t₀ h₀ T u₀ stop)
      (vmapPteLoop prot page n s (s.tables.dir (2 * b) / 4096, u % 512) (4096 * u) (4096 * w))
  | 0, _, _, _, _, _, _ => trivial
  | n + 1, u, s, h, hne, hub, hu => by
    subst hub
    rw [vmapPteLoop]
    dsimp only
    rw [addW_page (by omega)]
    by_cases h1 : pteNone s.tables (s.tables.dir (2 * (u / 512)) / 4096, u % 512) = true
    · rw [if_neg (not_not.mpr h1)]
      by_cases h2 : page s.nr = 0
      · rw [if_pos h2]
        exact ⟨fun h0 => absurd h0 (by decide), fun _ => ⟨by decide, u, by omega, h⟩⟩
      · rw [if_neg h2]
        by_cases h3 : w = u + 1
        · rw [if_neg (not_not.mpr (by rw [h3])), h3]
          exact ⟨fun _ => h.setPte hne, fun h0 => absurd rfl h0⟩
        · rw [if_pos (by omega), show u % 512 + 1 = (u + 1) % 512 by omega]
          exact vmapPteLoop_ends hw hb hstop (h.setPte hne) hne (by omega) (by omega)
    · rw [if_pos h1]
      exact ⟨fun h0 => absurd h0 (by decide), fun _ => ⟨by decide, u, by omega, h⟩⟩

theorem vmapPteRange_ends {stop : ℕ} (hT : ∀ f ∈ T, f ∈ h₀.livePages)
    (hw : w < 2 ^ 20 - 512) (hb : w ≤ (u / 512 + 1) * 512) (hstop : w ≤ stop) (hu : u < w)
    (h : Mapped prot page t₀ h₀ T u₀ u s) :
    Ends True (Mapped prot page t₀ h₀ T u₀ w) (Stopped prot page t₀ h₀ T u₀ stop)
      (vmapPteRange prot page fuel s (2 * (u / 512)) (4096 * u) (4096 * w)) := by
  unfold vmapPteRange
  rcases heq : pteAllocKernel s (2 * (u / 512)) (4096 * u) with _ | ⟨s', pte⟩
  · trivial
  · obtain ⟨h', hpte⟩ := pteAllocKernel_spec hT h heq
    simp only [Option.bind_eq_bind, Option.bind_some]
    rcases pte with _ | q
    · exact ⟨fun h0 => absurd h0 (by decide), fun _ => ⟨by decide, u, by omega, h'⟩⟩
    · obtain ⟨hne, rfl⟩ := hpte q rfl
      exact vmapPteLoop_ends hw hb hstop h' hne rfl hu

theorem ends_toENOMEM {ret : Prop} {P E : Walk → Prop} {r : Option (Walk × ℤ)}
    (h : Ends ret P E r) : Ends ret P E (r.map toENOMEM) := by
  rcases r with _ | ⟨s, err⟩
  · exact h
  · by_cases he : err = 0
    · exact ⟨fun _ => h.1 he, fun h0 => absurd (by simp [he]) h0⟩
    · have hr : (some (s, err)).map toENOMEM = some (s, -ENOMEM) := by simp [toENOMEM, he]
      rw [hr]
      exact ⟨fun h0 => absurd h0 (by decide), fun _ => ⟨by decide, (h.2 he).2⟩⟩

/-- **Mapping** a range of pages: after success all of them are mapped. -/
theorem vmapPageRange_spec {r : ℤ} (ht : TablesOk t₀ T) (hT : ∀ f ∈ T, f ∈ h₀.livePages)
    (hu : u < w) (hw : w < 2 ^ 20 - 512)
    (heq : vmapPageRange prot page fuel t₀ h₀ (4096 * u) (4096 * w) = some (s', r)) :
    (0 ≤ r → Mapped prot page t₀ h₀ T u w s') ∧ (r < 0 → Stopped prot page t₀ h₀ T u w s') := by
  have hstart : Mapped prot page t₀ h₀ T u u ⟨t₀, h₀, 0⟩ := by
    refine ⟨⟨[], ht, List.Perm.refl _, id, rfl⟩, fun v => (if_neg (by omega)).symm, ?_⟩
    exact Nat.zero_add u
  have h := @levelLoop_ends w Walk (vmapPudRange prot page fuel)
    (fun x s => Mapped prot page t₀ h₀ T u x s) (Stopped prot page t₀ h₀ T u w) _ hw
    (fun s x w' hm hxw hw' hblock => ?_) fuel u _ (Or.inl trivial) hu hstart
  · unfold vmapPageRange at heq
    rw [if_neg (by omega), pgdOffsetK_eq] at heq
    change (levelLoop (addrEnd (2 ^ 21)) 2 _ fuel (Walk.mk t₀ h₀ 0) _ _ _ >>= _) = _ at heq
    generalize levelLoop (addrEnd (2 ^ 21)) 2 (vmapPudRange prot page fuel) fuel (Walk.mk t₀ h₀ 0)
      (2 * (u / 512)) (4096 * u) (4096 * w) = res at h heq
    rcases res with _ | ⟨s, err⟩
    · cases heq
    · simp only [Option.bind_eq_bind, Option.bind_some, Option.some.injEq, Prod.mk.injEq] at heq
      obtain ⟨rfl, hr⟩ := heq
      by_cases he : err = 0
      · rw [if_neg (by simpa using he)] at hr
        exact ⟨fun _ => h.1 he, fun hlt => by omega⟩
      · rw [if_pos he] at hr
        subst hr
        exact ⟨fun hle => absurd (h.2 he).1 (by omega), fun _ => (h.2 he).2⟩
  · cases fuel with
    | zero => trivial
    | succ k =>
      refine ends_toENOMEM ?_
      show Ends _ _ _ (levelLoop (addrEnd (2 ^ 21)) 2 _ (k + 1) s _ _ _)
      rw [one_entry hxw (by omega) hblock]
      refine ends_toENOMEM ?_
      show Ends _ _ _ (levelLoop (addrEnd (2 ^ 21)) 1 _ (k + 1) s _ _ _)
      rw [one_entry hxw (by omega) hblock]
      exact vmapPteRange_ends hT (by omega) hblock hw' hxw hm

end

/-! ### Reading -/

theorem mkPte_eq {p : ℕ} (h : p < 2 ^ 20) : mkPte p PAGE_KERNEL = p * 4096 + 0x243 := by
  have hk : PAGE_KERNEL = 0x243 := by decide
  have hor : p * 2 ^ PAGE_SHIFT ||| 0x243 = p * 2 ^ PAGE_SHIFT + 0x243 := by
    have hsplit : p * 2 ^ PAGE_SHIFT = 2 ^ 12 * p := by
      unfold PAGE_SHIFT
      omega
    rw [hsplit, Nat.two_pow_add_eq_or_of_lt (by decide)]
  unfold mkPte
  rw [hk, hor]
  unfold PAGE_SHIFT
  omega

/-- **`mmu_vaddr_to_addr`** goes by the entry of the page that holds the address. -/
theorem mmuVaddrToAddr_eq (memory : ℕ) (t : Tables) (u : ℕ) {off : ℕ} (hoff : off < 4096) :
    mmuVaddrToAddr memory t (4096 * u + off) = if entry t u = 0 then none
      else some (physToVirt memory ((entry t u &&& notW 32 4095) ||| off)) := by
  have hpgd : pgdOffsetK (4096 * u + off) = 2 * (u / 512) := by
    unfold pgdOffsetK PGDIR_SHIFT
    omega
  have hpte : ∀ p, pteOffsetKernel t p (4096 * u + off) = (t.dir p / 4096, u % 512) := by
    intro p
    unfold pteOffsetKernel PAGE_SHIFT PTRS_PER_PTE
    rw [show (4096 * u + off) / 2 ^ 12 = u by omega]
    rfl
  have hmask : (4096 * u + off) &&& (PAGE_SIZE - 1) = off := by
    have hp : PAGE_SIZE - 1 = 2 ^ 12 - 1 := rfl
    rw [hp, Nat.and_two_pow_sub_one_eq_mod]
    omega
  unfold mmuVaddrToAddr
  simp only [hpgd, hpte, hmask]
  by_cases h0 : t.dir (2 * (u / 512)) = 0
  · rw [if_pos (by simp [pmdNone, h0]), if_pos (entry_of_none h0)]
  · rw [if_neg (by simp [pmdNone, h0]), entry_of_some h0]
    simp only [pteNone, decide_eq_true_eq]
    rfl

theorem mmuVaddrToAddr_mapped (memory : ℕ) {p off : ℕ} (hoff : off < 4096) (hp : p < 2 ^ 20)
    (h : entry t u = mkPte p PAGE_KERNEL) :
    mmuVaddrToAddr memory t (4096 * u + off) = some (addW 32 (pageAddress memory p) off) := by
  rw [mkPte_eq hp] at h
  have hand : (p * 4096 + 0x243) &&& notW 32 4095 = 2 ^ 12 * p := by
    have hm : (4095 : ℕ) = 2 ^ 12 - 1 := rfl
    rw [hm, and_notW (by omega) (by omega)]
    omega
  rw [mmuVaddrToAddr_eq memory t u hoff, h, if_neg (by omega), hand,
    ← Nat.two_pow_add_eq_or_of_lt (by omega)]
  unfold pageAddress physToVirt addW PAGE_SHIFT PHYS_OFFSET
  rw [Option.some.injEq]
  omega

end HardStack.Vmalloc.Entries
