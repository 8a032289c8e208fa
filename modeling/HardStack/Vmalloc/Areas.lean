import HardStack.Vmalloc.Model
import HardStack.Rbtree.Neighbour
import HardStack.Rbtree.Run

/-! # The set of areas

`Inv vstart vend σ`: the tree and the list hold the same areas in the order of their addresses, one
after the other inside `[vstart, vend)`, and the cache points to one of them. What each search of
`vmalloc.c` finds is stated over the list: a descent of the tree keeps the areas already passed on
the left apart from those on the right, so it ends at the position of the address in the list. -/

namespace HardStack.Vmalloc.Areas

open HardStack.Lib.Word HardStack.Lib.RbTree HardStack.Rbtree.Model HardStack.Rbtree.Layout
open HardStack.Rbtree.Neighbour HardStack.Rbtree.Run HardStack.Vmalloc.Model

variable {W : ℕ} {σ : Vm} {K : Ctx ℕ}

/-- One area ends before the next begins. -/
def Apart (σ : Vm) (a b : ℕ) : Prop := σ.vaEnd a ≤ σ.vaStart b

/-- **The set of areas.** -/
structure Inv (vstart vend : ℕ) (σ : Vm) : Prop where
  tree : ∃ t, TreeOf σ.rb t ∧ t.RedBlack ∧ t.inorder = σ.list
  apart : σ.list.Pairwise (Apart σ)
  range : ∀ a ∈ σ.list, vstart ≤ σ.vaStart a ∧ σ.vaStart a < σ.vaEnd a ∧ σ.vaEnd a ≤ vend
  cache : σ.freeVmapCache = 0 ∨ σ.freeVmapCache ∈ σ.list

/-- The areas of a sequence are apart and none is empty. -/
structure Sorted (σ : Vm) (L : List ℕ) : Prop where
  apart : L.Pairwise (Apart σ)
  pos : ∀ a ∈ L, σ.vaStart a < σ.vaEnd a

theorem Inv.sorted {vstart vend : ℕ} (h : Inv vstart vend σ) : Sorted σ σ.list :=
  ⟨h.apart, fun a ha => (h.range a ha).2.1⟩

theorem Inv.apart_or {vstart vend a b : ℕ} (h : Inv vstart vend σ) (ha : a ∈ σ.list)
    (hb : b ∈ σ.list) (hne : a ≠ b) : Apart σ a b ∨ Apart σ b a := by
  have : Std.Symm fun x y => Apart σ x y ∨ Apart σ y x := ⟨fun _ _ h => h.symm⟩
  have hpw := h.apart.imp (S := fun x y => Apart σ x y ∨ Apart σ y x) fun h => Or.inl h
  exact hpw.forall ha hb hne

/-- The top of the hole lies between what stands before and after. -/
theorem Sorted.around {c : Color} {l r : CTree ℕ} {p : ℕ}
    (h : Sorted σ (K.around (CTree.node c l p r).inorder)) :
    (∀ a ∈ K.before ++ l.inorder, σ.vaEnd a ≤ σ.vaStart p) ∧ σ.vaStart p < σ.vaEnd p ∧
      ∀ b ∈ r.inorder ++ K.after, σ.vaEnd p ≤ σ.vaStart b := by
  obtain ⟨h1, h2⟩ := Ctx.pairwise_around h.apart
  exact ⟨h1, h.pos p (Ctx.mem_around.mpr (Or.inl (by simp [CTree.inorder]))), h2⟩

theorem mem_before_right {c : Color} {l : CTree ℕ} {p a : ℕ} :
    a ∈ Ctx.before (⟨.right, c, p, l⟩ :: K) ↔ a ∈ K.before ++ l.inorder ∨ a = p := by
  simp [Ctx.before, or_assoc]

/-! ### `__find_vmap_area` -/

/-- The area holds the address. -/
def Covers (σ : Vm) (a addr : ℕ) : Prop := σ.vaStart a ≤ addr ∧ addr < σ.vaEnd a

theorem findLoop_spec (addr : ℕ) : ∀ {t : CTree ℕ} {K : Ctx ℕ} {n : ℕ}, At σ.rb K t →
    Sorted σ (K.around t.inorder) → (∀ a ∈ K.before, σ.vaEnd a ≤ addr) →
    (∀ a ∈ K.after, addr < σ.vaStart a) → t.inorder.length < n →
    ∃ r, findLoop σ addr n (ptr t) = some r ∧
      ((r ∈ t.inorder ∧ Covers σ r addr) ∨ (r = 0 ∧ ∀ a ∈ K.around t.inorder, ¬ Covers σ a addr))
  | .nil, K, n + 1, _, _, hb, ha, _ => by
    refine ⟨0, by simp [findLoop], Or.inr ⟨rfl, fun a hmem hc => ?_⟩⟩
    rw [CTree.inorder_nil, Ctx.around_eq, List.nil_append, List.mem_append] at hmem
    rcases hmem with hmem | hmem
    · exact absurd hc.2 (not_lt.mpr (hb a hmem))
    · exact absurd hc.1 (not_le.mpr (ha a hmem))
  | .node c l p r, K, n + 1, hat, hs, hb, ha, hn => by
    obtain ⟨hp, -, hl, hr, -, -⟩ := hat.tree
    obtain ⟨hbefore, hpos, hafter⟩ := hs.around
    have hin : (CTree.node c l p r).inorder = l.inorder ++ p :: r.inorder := rfl
    rw [hin, List.length_append, List.length_cons] at hn
    show ∃ q, findLoop σ addr (n + 1) p = some q ∧ _
    rw [findLoop, if_neg hp.1]
    by_cases h1 : addr < σ.vaStart p
    · have ha' : ∀ a ∈ Ctx.after (⟨.left, c, p, r⟩ :: K), addr < σ.vaStart a := by
        intro a hmem
        rcases List.mem_cons.mp hmem with rfl | hmem
        · exact h1
        · exact h1.trans (hpos.trans_le (hafter a hmem))
      obtain ⟨q, hq, hres⟩ := findLoop_spec addr (t := l) (K := ⟨.left, c, p, r⟩ :: K) (n := n)
        (at_cons.mpr hat) hs hb ha' (by omega)
      refine ⟨q, by rw [if_pos h1, hl, hq], hres.imp_left fun h => ⟨?_, h.2⟩⟩
      rw [hin]
      exact List.mem_append_left _ h.1
    · by_cases h2 : addr ≥ σ.vaEnd p
      · have hb' : ∀ a ∈ Ctx.before (⟨.right, c, p, l⟩ :: K), σ.vaEnd a ≤ addr := by
          intro a hmem
          rcases mem_before_right.mp hmem with hmem | rfl
          · exact (hbefore a hmem).trans (hpos.le.trans h2)
          · exact h2
        obtain ⟨q, hq, hres⟩ := findLoop_spec addr (t := r) (K := ⟨.right, c, p, l⟩ :: K) (n := n)
          (at_cons.mpr hat) hs hb' ha (by omega)
        refine ⟨q, by rw [if_neg h1, if_pos h2, hr, hq], hres.imp_left fun h => ⟨?_, h.2⟩⟩
        rw [hin]
        exact List.mem_append_right _ (List.mem_cons_of_mem _ h.1)
      · exact ⟨p, by rw [if_neg h1, if_neg h2], Or.inl ⟨by simp [hin], by omega, by omega⟩⟩

/-- **`__find_vmap_area`** returns, with the one area that holds the address, or `NULL` if none
does. -/
theorem findVmapArea_spec {vstart vend fuel : ℕ} (h : Inv vstart vend σ) (addr : ℕ)
    (hf : σ.list.length < fuel) : ∃ r, findVmapArea fuel σ addr = some r ∧
      ((r ∈ σ.list ∧ ∀ a ∈ σ.list, Covers σ a addr ↔ a = r) ∨
        (r = 0 ∧ ∀ a ∈ σ.list, ¬ Covers σ a addr)) := by
  obtain ⟨t, ht, -, hin⟩ := h.tree
  have hsort := h.sorted
  rw [← hin] at hf hsort
  obtain ⟨r, hr, hres⟩ := findLoop_spec addr (K := []) (n := fuel)
    (at_iff.mpr ht) hsort (by simp [Ctx.before]) (by simp [Ctx.after]) hf
  refine ⟨r, by unfold findVmapArea; rw [ht.root, hr], ?_⟩
  have haround : Ctx.around [] t.inorder = σ.list := hin
  rw [haround, hin] at hres
  rcases hres with ⟨hmem, hc⟩ | hnone
  · refine Or.inl ⟨hmem, fun a ha => ⟨fun hca => ?_, fun h => h ▸ hc⟩⟩
    -- two areas that hold one address are not apart
    by_contra hne
    unfold Covers at hc hca
    rcases h.apart_or ha hmem hne with hx | hx <;> unfold Apart at hx <;> omega
  · exact Or.inr hnone

/-- More fuel does not change what a search returns. -/
theorem findLoop_mono {addr r : ℕ} : ∀ {m n p : ℕ}, m ≤ n → findLoop σ addr m p = some r →
    findLoop σ addr n p = some r
  | 0, _, _, _, h => by cases h
  | m + 1, n, p, hmn, h => by
    obtain ⟨n, rfl⟩ : ∃ k, n = k + 1 := ⟨n - 1, by omega⟩
    rw [findLoop] at h ⊢
    split_ifs at h ⊢ with h0 h1 h2
    · exact h
    · exact findLoop_mono (by omega) h
    · exact findLoop_mono (by omega) h
    · exact h

/-- The same for a search that is known to return. -/
theorem findVmapArea_result {vstart vend fuel addr r : ℕ} (h : Inv vstart vend σ)
    (hr : findVmapArea fuel σ addr = some r) :
    (r ∈ σ.list ∧ ∀ a ∈ σ.list, Covers σ a addr ↔ a = r) ∨
      (r = 0 ∧ ∀ a ∈ σ.list, ¬ Covers σ a addr) := by
  obtain ⟨r', hr', hres⟩ := @findVmapArea_spec _ _ _ (fuel + σ.list.length + 1) h addr (by omega)
  have hmono : findVmapArea (fuel + σ.list.length + 1) σ addr = some r :=
    findLoop_mono (by omega) hr
  obtain rfl := Option.some.inj (hmono.symm.trans hr')
  exact hres

/-! ### The search for a hole -/

/-- The descent finds where the areas that end above `addr` begin in the list. -/
theorem searchFirst_spec {addr : ℕ} : ∀ {t : CTree ℕ} {K : Ctx ℕ} {n first r : ℕ}, At σ.rb K t →
    Sorted σ (K.around t.inorder) → (∀ a ∈ K.before, σ.vaEnd a ≤ addr) →
    first = K.after.headD 0 → searchFirst σ addr n (ptr t) first = some r →
    ∃ pre post, K.around t.inorder = pre ++ post ∧ r = post.headD 0 ∧
      ∀ a ∈ pre, σ.vaEnd a ≤ addr
  | t, K, 0, _, _, _, _, _, _, hr => by cases hr
  | .nil, K, n + 1, first, r, _, _, hb, hfirst, hr => by
    obtain rfl : first = r := by simpa [searchFirst] using hr
    exact ⟨K.before, K.after, by rw [CTree.inorder_nil, Ctx.around_eq, List.nil_append], hfirst, hb⟩
  | .node c l p r, K, n + 1, first, q, hat, hs, hb, hfirst, hq => by
    obtain ⟨hp, -, hl, hr, -, -⟩ := hat.tree
    obtain ⟨hbefore, hpos, hafter⟩ := hs.around
    have hq' : searchFirst σ addr (n + 1) p first = some q := hq
    rw [searchFirst, if_neg hp.1] at hq'
    by_cases h1 : σ.vaEnd p ≥ addr
    · rw [if_pos h1] at hq'
      by_cases h2 : σ.vaStart p ≤ addr
      · rw [if_pos h2] at hq'
        obtain rfl : p = q := Option.some.inj hq'
        refine ⟨K.before ++ l.inorder, p :: (r.inorder ++ K.after), ?_, rfl, ?_⟩
        · rw [Ctx.around_eq]
          simp [CTree.inorder]
        · exact fun a ha => (hbefore a ha).trans h2
      · rw [if_neg h2, hl] at hq'
        exact searchFirst_spec (t := l) (K := ⟨.left, c, p, r⟩ :: K) (at_cons.mpr hat) hs hb rfl hq'
    · rw [if_neg h1, hr] at hq'
      refine searchFirst_spec (t := r) (K := ⟨.right, c, p, l⟩ :: K) (at_cons.mpr hat) hs
        (fun a hmem => ?_) hfirst hq'
      rcases mem_before_right.mp hmem with hmem | rfl
      · exact (hbefore a hmem).trans (by omega)
      · omega

/-- No rounding of the search wraps around: neither that of `vstart` nor that of an area's end. -/
structure NoWrap (W : ℕ) (σ : Vm) (align vstart : ℕ) : Prop where
  vstart : vstart + align ≤ 2 ^ W
  area : ∀ a ∈ σ.list, σ.vaEnd a + align ≤ 2 ^ W

/-- The arguments of a request. -/
structure Request (W size k : ℕ) : Prop where
  size_pos : 0 < size
  size_lt : size < 2 ^ W
  align_le : k ≤ W

/-- Where the walk stands: the areas passed end at or below the aligned address. -/
structure Start (W : ℕ) (σ : Vm) (size k vstart addr : ℕ) (pre : List ℕ) : Prop where
  passed : ∀ a ∈ pre, σ.vaEnd a ≤ addr
  aligned : 2 ^ k ∣ addr
  ge : vstart ≤ addr
  fits : addr + size < 2 ^ W

/-- What the walk found: if the address fits below `vend`, a hole of the list. -/
structure Hole (W : ℕ) (σ : Vm) (size k vstart vend addr : ℕ) : Prop where
  aligned : 2 ^ k ∣ addr
  ge : vstart ≤ addr
  fits : addr + size < 2 ^ W
  hole : addr + size ≤ vend → ∃ pre post, σ.list = pre ++ post ∧
    (∀ a ∈ pre, σ.vaEnd a ≤ addr) ∧ ∀ b ∈ post, addr + size ≤ σ.vaStart b

/-- The two states have the same areas, and the cache is the same or empty. -/
structure Quiet (σ σ' : Vm) : Prop where
  rb : σ'.rb = σ.rb
  list : σ'.list = σ.list
  vaStart : σ'.vaStart = σ.vaStart
  vaEnd : σ'.vaEnd = σ.vaEnd
  cache : σ'.freeVmapCache = 0 ∨ σ'.freeVmapCache = σ.freeVmapCache

theorem Quiet.refl (σ : Vm) : Quiet σ σ := ⟨rfl, rfl, rfl, rfl, Or.inr rfl⟩

theorem Quiet.trans {σ₁ σ₂ σ₃ : Vm} (h : Quiet σ₁ σ₂) (h' : Quiet σ₂ σ₃) : Quiet σ₁ σ₃ := by
  refine ⟨h'.rb.trans h.rb, h'.list.trans h.list, h'.vaStart.trans h.vaStart,
    h'.vaEnd.trans h.vaEnd, ?_⟩
  rcases h'.cache with hc | hc
  · exact Or.inl hc
  · rw [hc]; exact h.cache

theorem Inv.quiet {vstart vend : ℕ} {σ' : Vm} (h : Inv vstart vend σ) (hq : Quiet σ σ') :
    Inv vstart vend σ' := by
  refine ⟨by rw [hq.rb, hq.list]; exact h.tree, ?_, ?_, ?_⟩
  · unfold Apart
    rw [hq.list, hq.vaStart, hq.vaEnd]
    exact h.apart
  · rw [hq.list, hq.vaStart, hq.vaEnd]
    exact h.range
  · rw [hq.list]
    rcases hq.cache with hc | hc
    · exact Or.inl hc
    · rw [hc]; exact h.cache

theorem NoWrap.quiet {align vstart : ℕ} {σ' : Vm} (h : NoWrap W σ align vstart) (hq : Quiet σ σ') :
    NoWrap W σ' align vstart := by
  refine ⟨h.vstart, ?_⟩
  rw [hq.list, hq.vaEnd]
  exact h.area

theorem Hole.quiet {size k vstart vend addr : ℕ} {σ' : Vm} (h : Hole W σ' size k vstart vend addr)
    (hq : Quiet σ σ') : Hole W σ size k vstart vend addr := by
  obtain ⟨h1, h2, h3, h4⟩ := h
  rw [hq.list, hq.vaStart, hq.vaEnd] at h4
  exact ⟨h1, h2, h3, h4⟩

/-- The check of the source: `addr + size` wraps exactly when the sum is below `addr`. -/
theorem addW_lt_iff {a b : ℕ} (ha : a < 2 ^ W) (hb : b < 2 ^ W) :
    addW W a b < a ↔ 2 ^ W ≤ a + b := by
  unfold addW
  constructor
  · intro h
    by_contra hlt
    rw [Nat.mod_eq_of_lt (by omega)] at h
    omega
  · intro h
    rw [Nat.mod_eq_sub_mod h, Nat.mod_eq_of_lt (by omega)]
    omega

theorem addW_eq {a b : ℕ} (h : a + b < 2 ^ W) : addW W a b = a + b := Nat.mod_eq_of_lt h

/-- Rounding up from `x` starts a walk that has passed the areas up to `x`. -/
theorem start_of_alignUp {size k vstart x : ℕ} {pre : List ℕ} (hr : Request W size k)
    (hx : x + 2 ^ k ≤ 2 ^ W) (hv : vstart ≤ alignUp W x (2 ^ k)) (hpre : ∀ a ∈ pre, σ.vaEnd a ≤ x)
    (hno : ¬ addW W (alignUp W x (2 ^ k)) size < alignUp W x (2 ^ k)) :
    Start W σ size k vstart (alignUp W x (2 ^ k)) pre := by
  rw [addW_lt_iff (alignUp_lt hr.align_le x) hr.size_lt, not_le] at hno
  exact ⟨fun a ha => (hpre a ha).trans (le_alignUp hr.align_le hx), alignUp_dvd hr.align_le x, hv,
    hno⟩

theorem walk_spec {size k vstart vend : ℕ} (hr : Request W size k) : ∀ {post pre : List ℕ} {σ : Vm}
    {addr : ℕ}, Inv vstart vend σ → NoWrap W σ (2 ^ k) vstart → σ.list = pre ++ post →
    Start W σ size k vstart addr pre →
    Quiet σ (walk W size (2 ^ k) vend post σ addr).1 ∧
      ∀ a, (walk W size (2 ^ k) vend post σ addr).2 = some a → Hole W σ size k vstart vend a
  | [], pre, σ, addr, _, _, hlist, hst => by
    refine ⟨Quiet.refl σ, fun a ha => ?_⟩
    obtain rfl : addr = a := Option.some.inj ha
    exact ⟨hst.aligned, hst.ge, hst.fits, fun _ => ⟨pre, [], hlist, hst.passed, by simp⟩⟩
  | first :: rest, pre, σ, addr, hinv, hnw, hlist, hst => by
    rw [walk, addW_eq hst.fits]
    have hmem : first ∈ σ.list := by rw [hlist]; simp
    have hord := hinv.apart
    rw [hlist, List.pairwise_append, List.pairwise_cons] at hord
    obtain ⟨hv, hpos, -⟩ := hinv.range first hmem
    by_cases hc : addr + size > σ.vaStart first ∧ addr + size ≤ vend
    · rw [if_pos hc]
      simp only
      -- noting the size of the hole does not touch the areas
      have hq : ∀ σ' : Vm, σ' = (if addW W addr σ.cachedHoleSize < σ.vaStart first then
          { σ with cachedHoleSize := (σ.vaStart first + 2 ^ W - addr) % 2 ^ W } else σ) →
          Quiet σ σ' := by
        rintro σ' rfl
        split_ifs
        · exact ⟨rfl, rfl, rfl, rfl, Or.inr rfl⟩
        · exact Quiet.refl σ
      generalize hσ' : (if addW W addr σ.cachedHoleSize < σ.vaStart first then
          { σ with cachedHoleSize := (σ.vaStart first + 2 ^ W - addr) % 2 ^ W } else σ) = σ'
      replace hq := hq σ' hσ'.symm
      by_cases hov : addW W (alignUp W (σ'.vaEnd first) (2 ^ k)) size <
          alignUp W (σ'.vaEnd first) (2 ^ k)
      · rw [if_pos hov]
        exact ⟨hq, fun a ha => by cases ha⟩
      · rw [if_neg hov]
        have hend := hnw.area first hmem
        have hst' : Start W σ' size k vstart (alignUp W (σ'.vaEnd first) (2 ^ k))
            (pre ++ [first]) := by
          rw [hq.vaEnd] at hov ⊢
          have hle := le_alignUp hr.align_le hend
          refine start_of_alignUp hr hend (by omega) ?_ hov
          intro a ha
          rw [hq.vaEnd]
          rcases List.mem_append.mp ha with ha | ha
          · have hap : σ.vaEnd a ≤ σ.vaStart first := hord.2.2 a ha first List.mem_cons_self
            omega
          · rw [List.mem_singleton.mp ha]
        have hlist' : σ'.list = (pre ++ [first]) ++ rest := by
          rw [hq.list, hlist, List.append_assoc, List.singleton_append]
        obtain ⟨hq2, hfound⟩ := walk_spec hr (hinv.quiet hq) (hnw.quiet hq) hlist' hst'
        exact ⟨hq.trans hq2, fun a ha => (hfound a ha).quiet hq⟩
    · rw [if_neg hc]
      refine ⟨Quiet.refl σ, fun a ha => ?_⟩
      obtain rfl : addr = a := Option.some.inj ha
      refine ⟨hst.aligned, hst.ge, hst.fits, fun hle => ⟨pre, _, hlist, hst.passed, ?_⟩⟩
      intro b hb
      rcases List.mem_cons.mp hb with rfl | hb
      · omega
      · have hap : σ.vaEnd first ≤ σ.vaStart b := hord.2.1.1 b hb
        omega

/-- The areas of the tree are nodes, so none is at `NULL`, and each is there once. -/
theorem Inv.nodes {vstart vend : ℕ} (h : Inv vstart vend σ) :
    σ.list.Nodup ∧ ∀ a ∈ σ.list, a ≠ 0 := by
  obtain ⟨t, ht, -, hin⟩ := h.tree
  rw [← hin]
  exact ⟨ht.nodup, fun a ha => (addr_of_mem ht.tree ha).1⟩

/-- The rest of the list from one of its areas on. -/
theorem dropWhile_eq {pre post : List ℕ} {x : ℕ} (hnd : (pre ++ x :: post).Nodup) :
    (pre ++ x :: post).dropWhile (· ≠ x) = x :: post := by
  have hx : ∀ y ∈ pre, y ≠ x := fun y hy => (List.nodup_append.mp hnd).2.2 y hy x (by simp)
  rw [List.dropWhile_append_of_pos (by simpa using hx)]
  simp

theorem searchNocache_spec {fuel size k vstart vend : ℕ} {σ' : Vm} {r : Option ℕ}
    (hr : Request W size k) (hinv : Inv vstart vend σ) (hnw : NoWrap W σ (2 ^ k) vstart)
    (h : searchNocache W fuel σ size (2 ^ k) vstart vend = some (σ', r)) :
    Quiet σ σ' ∧ ∀ a, r = some a → Hole W σ size k vstart vend a := by
  unfold searchNocache at h
  simp only at h
  set τ : Vm := { σ with
    cachedHoleSize := 0, freeVmapCache := 0, cachedVstart := vstart, cachedAlign := 2 ^ k } with hτ
  have hq : Quiet σ τ := ⟨rfl, rfl, rfl, rfl, Or.inl rfl⟩
  by_cases hov : addW W (alignUp W vstart (2 ^ k)) size < alignUp W vstart (2 ^ k)
  · rw [if_pos hov] at h
    obtain ⟨rfl, rfl⟩ := Prod.mk.inj (Option.some.inj h.symm)
    exact ⟨hq, fun a ha => by cases ha⟩
  · rw [if_neg hov] at h
    simp only [Option.bind_eq_bind, Option.bind_eq_some_iff] at h
    obtain ⟨first, hfirst, h⟩ := h
    have hinvτ := hinv.quiet hq
    obtain ⟨t, ht, -, hin⟩ := hinvτ.tree
    have hsort := hinvτ.sorted
    rw [← hin] at hsort
    rw [ht.root] at hfirst
    obtain ⟨pre, post, hsplit, hhead, hpre⟩ := searchFirst_spec (K := []) (at_iff.mpr ht) hsort
      (by simp [Ctx.before]) rfl hfirst
    have hlist : τ.list = pre ++ post := by rw [← hin]; exact hsplit
    have hst : Start W τ size k vstart (alignUp W vstart (2 ^ k)) pre := by
      rw [addW_lt_iff (alignUp_lt hr.align_le _) hr.size_lt, not_le] at hov
      exact ⟨hpre, alignUp_dvd hr.align_le _, le_alignUp hr.align_le hnw.vstart, hov⟩
    have hwalk := walk_spec hr hinvτ (hnw.quiet hq) hlist hst
    -- both exits of the descent are the walk over the rest of the list
    have heq : (σ', r) = walk W size (2 ^ k) vend post τ (alignUp W vstart (2 ^ k)) := by
      obtain ⟨hnd, hne⟩ := hinvτ.nodes
      cases post with
      | nil =>
        rw [if_pos (hhead.trans List.headD_nil)] at h
        exact (Option.some.inj h).symm
      | cons x post =>
        have hx : x ≠ 0 := hne x (by rw [hlist]; simp)
        obtain rfl : first = x := hhead
        have hσ : σ.list = pre ++ first :: post := hlist
        rw [if_neg hx, hσ, dropWhile_eq (hlist ▸ hnd)] at h
        exact (Option.some.inj h).symm
    obtain ⟨h1, h2⟩ := Prod.ext_iff.mp heq
    rw [← h1, ← h2] at hwalk
    exact ⟨hq.trans hwalk.1, fun a ha => (hwalk.2 a ha).quiet hq⟩

/-- **The search** leaves the areas alone, and an address it finds is that of a hole. -/
theorem searchHole_spec {fuel size k vstart vend : ℕ} {σ' : Vm} {r : Option ℕ}
    (hr : Request W size k) (hinv : Inv vstart vend σ) (hnw : NoWrap W σ (2 ^ k) vstart)
    (h : searchHole W fuel σ size (2 ^ k) vstart vend = some (σ', r)) :
    Quiet σ σ' ∧ ∀ a, r = some a → Hole W σ size k vstart vend a := by
  unfold searchHole at h
  simp only at h
  split_ifs at h with h1 h2 h3
  · exact searchNocache_spec hr hinv hnw h
  · have hq : Quiet σ { σ with cachedVstart := vstart, cachedAlign := 2 ^ k } :=
      ⟨rfl, rfl, rfl, rfl, Or.inr rfl⟩
    obtain ⟨hq', hfound⟩ := searchNocache_spec hr (hinv.quiet hq) (hnw.quiet hq) h
    exact ⟨hq.trans hq', fun a ha => (hfound a ha).quiet hq⟩
  · cases h
    exact ⟨⟨rfl, rfl, rfl, rfl, Or.inr rfl⟩, fun a ha => by cases ha⟩
  · -- from the cache: the areas before the cached one end before it
    set τ : Vm := { σ with cachedVstart := vstart, cachedAlign := 2 ^ k } with hτ
    have hq : Quiet σ τ := ⟨rfl, rfl, rfl, rfl, Or.inr rfl⟩
    have hinvτ := hinv.quiet hq
    have hcache : σ.freeVmapCache ∈ σ.list := hinv.cache.resolve_left fun h0 => h1 (Or.inl h0)
    obtain ⟨pre, post, hlist⟩ := List.append_of_mem hcache
    have hord := hinv.apart
    rw [hlist, List.pairwise_append] at hord
    have hst : Start W τ size k vstart (alignUp W (σ.vaEnd σ.freeVmapCache) (2 ^ k)) pre := by
      refine start_of_alignUp hr (hnw.area _ hcache) (by omega) (fun a ha => ?_) h3
      have hap : σ.vaEnd a ≤ σ.vaStart σ.freeVmapCache := hord.2.2 a ha _ List.mem_cons_self
      have hpos := (hinv.range _ hcache).2.1
      show σ.vaEnd a ≤ _
      omega
    obtain ⟨hq', hfound⟩ := walk_spec hr hinvτ (hnw.quiet hq)
      (show τ.list = pre ++ _ from hlist) hst
    have hdrop : σ.list.dropWhile (· ≠ σ.freeVmapCache) = σ.freeVmapCache :: post := by
      have hnd := hinv.nodes.1
      rw [hlist] at hnd
      conv_lhs => rw [hlist]
      exact dropWhile_eq hnd
    rw [hdrop] at h
    obtain ⟨e1, e2⟩ := Prod.ext_iff.mp (Option.some.inj h)
    rw [e1] at hq'
    exact ⟨hq.trans hq', fun a ha => (hfound a (e2.trans ha)).quiet hq⟩

end HardStack.Vmalloc.Areas
