import HardStack.Vmalloc.Areas
import HardStack.Lib.Run

/-! # Runs of allocations and frees of areas

The run keeps, beside the globals of `vmalloc.c`, the live areas with the alignment each was asked
for. `ALIGN` may wrap around, and then an area outside the range is handed out
(`not_areaSet_of_wrap`). Where no rounding of a run's calls wraps, every reachable state is
consistent (`reachable_areaSet`). -/

namespace HardStack.Vmalloc.Run

open HardStack.Lib.Word HardStack.Lib.RbTree HardStack.Rbtree.Model HardStack.Rbtree.Layout
open HardStack.Rbtree HardStack.Rbtree.Neighbour HardStack.Rbtree.Run HardStack.Vmalloc.Model
open HardStack.Vmalloc.Areas

variable {W vstart vend : ℕ} {σ : Vm} {K : Ctx ℕ} {va : ℕ}

/-! ### `__insert_vmap_area` -/

/-- The position of the hole, as the code holds it. -/
def linkOf : Ctx ℕ → Link
  | [] => .root
  | f :: _ => .child f.dir f.ptr

theorem freeLink_linkOf {rb : State Unit} (h : At rb K .nil) :
    FreeLink rb (K.around []) (linkOf K) := by
  cases K with
  | nil => exact h.ctx
  | cons f K =>
    obtain ⟨-, -, hc, -⟩ := h.ctx
    refine ⟨Ctx.mem_around.mpr (Or.inr List.mem_cons_self), hc⟩

theorem place_linkOf (hnd : (K.around []).Nodup) :
    place va (K.around []) (linkOf K) = K.before ++ va :: K.after := by
  have heq : K.before ++ va :: K.after = K.around [va] := by rw [Ctx.around_eq]; rfl
  rw [heq]
  cases K with
  | nil => rfl
  | cons f K => exact placeBy_around hnd

/-- The new area lies apart from an area. -/
def Clear (σ : Vm) (va a : ℕ) : Prop := Apart σ a va ∨ Apart σ va a

/-- The descent ends at the hole between the areas below the new one and those above. -/
theorem insertLoop_spec (hva : σ.vaStart va < σ.vaEnd va) : ∀ {t : CTree ℕ} {K : Ctx ℕ} {n : ℕ}
    {link : Link}, At σ.rb K t → Sorted σ (K.around t.inorder) →
    (∀ a ∈ K.around t.inorder, Clear σ va a) → (∀ a ∈ K.before, Apart σ a va) →
    (∀ a ∈ K.after, Apart σ va a) → insertLoop σ va n (ptr t) (linkOf K) = some link →
    ∃ K', At σ.rb K' .nil ∧ K'.around [] = K.around t.inorder ∧ link = linkOf K' ∧
      (∀ a ∈ K'.before, Apart σ a va) ∧ ∀ a ∈ K'.after, Apart σ va a
  | t, K, 0, _, _, _, _, _, _, h => by cases h
  | .nil, K, n + 1, link, hat, _, _, hb, ha, h => by
    obtain rfl : linkOf K = link := by simpa [insertLoop] using h
    exact ⟨K, hat, rfl, rfl, hb, ha⟩
  | .node c l p r, K, n + 1, link, hat, hs, hclear, hb, ha, h => by
    obtain ⟨hp, -, hl, hr, -, -⟩ := hat.tree
    obtain ⟨hbefore, hpos, hafter⟩ := hs.around
    have h' : insertLoop σ va (n + 1) p (linkOf K) = some link := h
    rw [insertLoop, if_neg hp.1] at h'
    have hcp := hclear p (Ctx.mem_around.mpr (Or.inl (by simp [CTree.inorder])))
    unfold Clear Apart at hcp
    by_cases h1 : σ.vaStart va < σ.vaEnd p
    · rw [if_pos h1, hl] at h'
      refine insertLoop_spec hva (t := l) (K := ⟨.left, c, p, r⟩ :: K) (at_cons.mpr hat) hs hclear
        hb (fun a hmem => ?_) h'
      unfold Apart
      rcases List.mem_cons.mp hmem with rfl | hmem
      · omega
      · have := hafter a hmem
        omega
    · -- the test for `BUG()` holds: the area ends at or below the new one
      rw [if_neg h1, if_pos (by omega), hr] at h'
      refine insertLoop_spec hva (t := r) (K := ⟨.right, c, p, l⟩ :: K) (at_cons.mpr hat) hs hclear
        (fun a hmem => ?_) ha h'
      unfold Apart
      rcases mem_before_right.mp hmem with hmem | rfl
      · have := hbefore a hmem
        omega
      · omega

/-- `list_add` after the last area of the first part. -/
theorem listAddAfter_eq : ∀ {pre post : List ℕ}, (pre ++ post).Nodup → pre ≠ [] →
    listAddAfter va (lastPtr pre) (pre ++ post) = pre ++ va :: post
  | [], _, _, h => absurd rfl h
  | [x], post, _, _ => by
    show listAddAfter va (lastPtr ([] ++ [x])) (x :: post) = _
    rw [lastPtr_concat, listAddAfter, if_pos rfl]
    rfl
  | x :: y :: pre, post, hnd, _ => by
    have hrec := listAddAfter_eq (List.nodup_cons.mp hnd).2 (List.cons_ne_nil y pre)
    have hlast : lastPtr (x :: y :: pre) = lastPtr (y :: pre) :=
      lastPtr_append (L := [x]) (List.cons_ne_nil _ _)
    have hmem : lastPtr (y :: pre) ∈ y :: pre := lastPtr_mem (List.cons_ne_nil y pre)
    have hne : x ≠ lastPtr (y :: pre) := fun he =>
      (List.nodup_cons.mp hnd).1 (List.mem_append_left _ (he ▸ hmem))
    rw [hlast, List.cons_append, listAddAfter, if_neg hne, hrec]
    rfl

/-- **`__insert_vmap_area`** puts the area at its place in the tree and in the list. -/
theorem insertVmapArea_spec {fuel : ℕ} {σ' : Vm} {t : CTree ℕ} (ht : TreeOf σ.rb t)
    (hrb : t.RedBlack) (hin : t.inorder = σ.list) (hs : Sorted σ σ.list) (hadr : Addr va)
    (hfresh : va ∉ σ.list) (hva : σ.vaStart va < σ.vaEnd va) (hclear : ∀ a ∈ σ.list, Clear σ va a)
    (h : insertVmapArea fuel σ va = some σ') :
    ∃ pre post rb t', σ.list = pre ++ post ∧ σ' = { σ with rb := rb, list := pre ++ va :: post } ∧
      TreeOf rb t' ∧ t'.RedBlack ∧ t'.inorder = pre ++ va :: post ∧
      (∀ a ∈ pre, Apart σ a va) ∧ ∀ b ∈ post, Apart σ va b := by
  unfold insertVmapArea at h
  simp only [Option.bind_eq_bind, Option.bind_eq_some_iff] at h
  obtain ⟨link, hlink, rb, hcolor, tmp, hprev, h⟩ := h
  rw [ht.root] at hlink
  rw [← hin] at hs hclear hfresh
  obtain ⟨K, hat, haround, rfl, hb, ha⟩ := insertLoop_spec hva (K := []) (at_iff.mpr ht) hs hclear
    (by simp [Ctx.before]) (by simp [Ctx.after]) hlink
  have haround' : K.around [] = t.inorder := haround
  have hsplit : t.inorder = K.before ++ K.after := by rw [← haround', Ctx.around_eq]; rfl
  obtain ⟨t', ht', hrb', hin'⟩ := insert_result ht hrb hadr hfresh
    (haround' ▸ freeLink_linkOf hat) hcolor
  rw [← haround', place_linkOf hat.nodup] at hin'
  have htmp := rbPrev_result ht' hin' hprev
  refine ⟨K.before, K.after, rb, t', hin ▸ hsplit, ?_, ht', hrb', hin', hb, ha⟩
  rw [← Option.some.inj h]
  congr 1
  have hnd : (K.before ++ K.after).Nodup := hsplit ▸ ht.nodup
  rw [htmp, ← hin, hsplit]
  by_cases hnil : K.before = []
  · rw [hnil]
    simp
  · have hne : lastPtr K.before ≠ 0 := by
      have hmem : lastPtr K.before ∈ t'.inorder := by
        rw [hin']
        exact List.mem_append_left _ (lastPtr_mem hnil)
      exact (addr_of_mem ht'.tree hmem).1
    rw [if_pos hne, listAddAfter_eq hnd hnil]

/-! ### `alloc_vmap_area` -/

/-- What an allocation has done: the new area is in its place, and it is aligned. -/
structure Allocated (σ σ' : Vm) (va k vstart vend : ℕ) : Prop where
  inv : Inv vstart vend σ'
  list : ∃ pre post, σ.list = pre ++ post ∧ σ'.list = pre ++ va :: post
  aligned : 2 ^ k ∣ σ'.vaStart va
  frame : ∀ a, a ≠ va → σ'.vaStart a = σ.vaStart a ∧ σ'.vaEnd a = σ.vaEnd a

/-- Placing the area in the hole that was found. -/
theorem place_spec {fuel size k addr : ℕ} {σ' : Vm} (hr : Request W size k)
    (hinv : Inv vstart vend σ) (hadr : Addr va) (hfresh : va ∉ σ.list)
    (hole : Hole W σ size k vstart vend addr) (hend : addr + size ≤ vend)
    (h : insertVmapArea fuel { σ with
      vaStart := Function.update σ.vaStart va addr
      vaEnd := Function.update σ.vaEnd va (addr + size)
      flags := Function.update σ.flags va 0 } va = some σ') :
    Allocated σ { σ' with freeVmapCache := va } va k vstart vend := by
  set τ : Vm := { σ with
    vaStart := Function.update σ.vaStart va addr
    vaEnd := Function.update σ.vaEnd va (addr + size)
    flags := Function.update σ.flags va 0 } with hτ
  have hne : ∀ a ∈ σ.list, a ≠ va := fun a ha he => hfresh (he ▸ ha)
  have hold : ∀ a, a ≠ va → τ.vaStart a = σ.vaStart a ∧ τ.vaEnd a = σ.vaEnd a := fun a ha =>
    ⟨Function.update_of_ne ha _ _, Function.update_of_ne ha _ _⟩
  have hnewS : τ.vaStart va = addr := Function.update_self _ _ _
  have hnewE : τ.vaEnd va = addr + size := Function.update_self _ _ _
  have hapart : τ.list.Pairwise (Apart τ) := by
    refine List.Pairwise.imp_of_mem ?_ hinv.apart
    intro a b ha hb hab
    unfold Apart
    rw [(hold a (hne a ha)).2, (hold b (hne b hb)).1]
    exact hab
  have hrange : ∀ a ∈ σ.list,
      vstart ≤ τ.vaStart a ∧ τ.vaStart a < τ.vaEnd a ∧ τ.vaEnd a ≤ vend := by
    intro a ha
    rw [(hold a (hne a ha)).1, (hold a (hne a ha)).2]
    exact hinv.range a ha
  have hclear : ∀ a ∈ τ.list, Clear τ va a := by
    intro a ha
    obtain ⟨pre, post, hsplit, hpre, hpost⟩ := hole.hole hend
    unfold Clear Apart
    rw [(hold a (hne a ha)).1, (hold a (hne a ha)).2, hnewS, hnewE]
    rcases List.mem_append.mp (hsplit ▸ ha) with ha | ha
    · exact Or.inl (hpre a ha)
    · exact Or.inr (hpost a ha)
  obtain ⟨t, ht, hrb, hin⟩ := hinv.tree
  have hsz := hr.size_pos
  obtain ⟨pre, post, rb, t', hsplit, rfl, ht', hrb', hin', hpre, hpost⟩ :=
    insertVmapArea_spec (σ := τ) ht hrb hin ⟨hapart, fun a ha => (hrange a ha).2.1⟩ hadr hfresh
      (by rw [hnewS, hnewE]; omega) hclear h
  have hsplit' : σ.list = pre ++ post := hsplit
  rw [hsplit, List.pairwise_append] at hapart
  refine ⟨⟨⟨t', ht', hrb', hin'⟩, ?_, ?_, Or.inr (by simp)⟩, ⟨pre, post, hsplit, rfl⟩, ?_, hold⟩
  · show (pre ++ va :: post).Pairwise (Apart τ)
    rw [List.pairwise_append, List.pairwise_cons]
    refine ⟨hapart.1, ⟨hpost, hapart.2.1⟩, ?_⟩
    intro a ha b hb
    rcases List.mem_cons.mp hb with rfl | hb
    · exact hpre a ha
    · exact hapart.2.2 a ha b hb
  · intro a ha
    show vstart ≤ τ.vaStart a ∧ τ.vaStart a < τ.vaEnd a ∧ τ.vaEnd a ≤ vend
    by_cases hav : a = va
    · rw [hav, hnewS, hnewE]
      have := hole.ge
      omega
    · refine hrange a ?_
      have ha' : a ∈ pre ++ va :: post := ha
      rw [hsplit']
      simpa [hav] using ha'
  · show 2 ^ k ∣ τ.vaStart va
    rw [hnewS]
    exact hole.aligned

theorem allocLoop_spec {fuel size k : ℕ} (hr : Request W size k) : ∀ {n : ℕ} {σ σ' : Vm},
    Inv vstart vend σ → NoWrap W σ (2 ^ k) vstart → Addr va → va ∉ σ.list →
    allocLoop W fuel va size (2 ^ k) vstart vend n σ = some σ' → Allocated σ σ' va k vstart vend
  | 0, _, _, _, _, _, _, h => by cases h
  | n + 1, σ, σ', hinv, hnw, hadr, hfresh, h => by
    rw [allocLoop] at h
    simp only [Option.bind_eq_bind, Option.bind_eq_some_iff] at h
    obtain ⟨⟨σ₁, found⟩, hsearch, h⟩ := h
    obtain ⟨hq, hfound⟩ := searchHole_spec hr hinv hnw hsearch
    have hinv₁ := hinv.quiet hq
    have hfresh₁ : va ∉ σ₁.list := by rw [hq.list]; exact hfresh
    have hback : ∀ {σ₂ : Vm}, Allocated σ₁ σ₂ va k vstart vend →
        Allocated σ σ₂ va k vstart vend := by
      intro σ₂ ⟨h1, h2, h3, h4⟩
      rw [hq.list] at h2
      rw [hq.vaStart, hq.vaEnd] at h4
      exact ⟨h1, h2, h3, h4⟩
    have hretry : allocLoop W fuel va size (2 ^ k) vstart vend n σ₁ = some σ' →
        Allocated σ σ' va k vstart vend := fun h' =>
      hback (allocLoop_spec hr hinv₁ (hnw.quiet hq) hadr hfresh₁ h')
    cases found with
    | none => exact hretry h
    | some addr =>
      have hole := hfound addr rfl
      simp only [addW_eq hole.fits] at h
      split_ifs at h with hov
      · exact hretry h
      · obtain ⟨σ₂, hins, h⟩ := Option.bind_eq_some_iff.mp h
        obtain rfl := Option.some.inj h
        obtain ⟨h1, h2, h3, h4⟩ := hole
        rw [← hq.list, ← hq.vaStart, ← hq.vaEnd] at h4
        exact hback (place_spec hr hinv₁ hadr hfresh₁ ⟨h1, h2, h3, h4⟩ (by omega) hins)

/-! ### Where an area is placed -/

/-- The address of a new area is the rounded start of the range or the rounded end of an area. -/
def Origin (W : ℕ) (σ : Vm) (align vstart a : ℕ) : Prop :=
  a = alignUp W vstart align ∨ ∃ x ∈ σ.list, a = alignUp W (σ.vaEnd x) align

/-- The size of the hole below `first`, noted in the cache. -/
def noted (W : ℕ) (σ : Vm) (first addr : ℕ) : Vm :=
  if addW W addr σ.cachedHoleSize < σ.vaStart first then
    { σ with cachedHoleSize := (σ.vaStart first + 2 ^ W - addr) % 2 ^ W } else σ

theorem noted_fields (σ : Vm) (first addr : ℕ) : (noted W σ first addr).list = σ.list ∧
    (noted W σ first addr).vaEnd = σ.vaEnd ∧ (noted W σ first addr).flags = σ.flags := by
  unfold noted
  split_ifs <;> exact ⟨rfl, rfl, rfl⟩

theorem walk_cons {size align vend first addr : ℕ} {rest : List ℕ} :
    walk W size align vend (first :: rest) σ addr =
      if addW W addr size > σ.vaStart first ∧ addW W addr size ≤ vend then
        if addW W (alignUp W (σ.vaEnd first) align) size < alignUp W (σ.vaEnd first) align then
          (noted W σ first addr, none)
        else walk W size align vend rest (noted W σ first addr) (alignUp W (σ.vaEnd first) align)
      else (σ, some addr) := by
  rw [walk]
  by_cases hc : addW W addr σ.cachedHoleSize < σ.vaStart first
  · have hn : noted W σ first addr = { σ with
        cachedHoleSize := (σ.vaStart first + 2 ^ W - addr) % 2 ^ W } := if_pos hc
    rw [hn]
    simp only [if_pos hc]
  · have hn : noted W σ first addr = σ := if_neg hc
    rw [hn]
    simp only [if_neg hc]

theorem walk_origin {size align vend a : ℕ} : ∀ {post : List ℕ} {σ : Vm} {addr : ℕ},
    (walk W size align vend post σ addr).2 = some a →
    a = addr ∨ ∃ x ∈ post, a = alignUp W (σ.vaEnd x) align
  | [], _, _, h => Or.inl (Option.some.inj h).symm
  | first :: rest, σ, addr, h => by
    obtain ⟨-, he, -⟩ := noted_fields (W := W) σ first addr
    rw [walk_cons] at h
    by_cases h1 : addW W addr size > σ.vaStart first ∧ addW W addr size ≤ vend
    · rw [if_pos h1] at h
      by_cases h2 : addW W (alignUp W (σ.vaEnd first) align) size < alignUp W (σ.vaEnd first) align
      · rw [if_pos h2] at h
        cases h
      · rw [if_neg h2] at h
        rcases walk_origin h with h3 | ⟨x, hx, h3⟩
        · exact Or.inr ⟨first, List.mem_cons_self, h3⟩
        · exact Or.inr ⟨x, List.mem_cons_of_mem _ hx, by rw [h3, he]⟩
    · rw [if_neg h1] at h
      exact Or.inl (Option.some.inj h).symm

theorem walk_flags {size align vend : ℕ} : ∀ {post : List ℕ} {σ : Vm} {addr : ℕ},
    (walk W size align vend post σ addr).1.flags = σ.flags
  | [], _, _ => rfl
  | first :: rest, σ, addr => by
    obtain ⟨-, -, hfl⟩ := noted_fields (W := W) σ first addr
    rw [walk_cons]
    by_cases h1 : addW W addr size > σ.vaStart first ∧ addW W addr size ≤ vend
    · rw [if_pos h1]
      by_cases h2 : addW W (alignUp W (σ.vaEnd first) align) size < alignUp W (σ.vaEnd first) align
      · rw [if_pos h2]
        exact hfl
      · rw [if_neg h2, walk_flags, hfl]
    · rw [if_neg h1]

theorem searchNocache_origin {fuel size align vend : ℕ} {σ' : Vm} {r : Option ℕ}
    (h : searchNocache W fuel σ size align vstart vend = some (σ', r)) :
    σ'.flags = σ.flags ∧ ∀ a, r = some a → Origin W σ align vstart a := by
  unfold searchNocache at h
  dsimp only at h
  split_ifs at h with h1
  · obtain ⟨rfl, rfl⟩ := Prod.mk.inj (Option.some.inj h.symm)
    exact ⟨rfl, fun a hr => by cases hr⟩
  · simp only [Option.bind_eq_bind, Option.bind_eq_some_iff] at h
    obtain ⟨first, -, h⟩ := h
    split_ifs at h with h2
    · obtain ⟨rfl, rfl⟩ := Prod.mk.inj (Option.some.inj h.symm)
      exact ⟨rfl, fun a hr => Or.inl (Option.some.inj hr).symm⟩
    · obtain ⟨e1, e2⟩ := Prod.ext_iff.mp (Option.some.inj h)
      refine ⟨?_, fun a hr => ?_⟩
      · rw [← show _ = σ' from e1, walk_flags]
      · exact (walk_origin (e2.trans hr)).imp_right fun ⟨x, hx, h3⟩ =>
          ⟨x, (List.dropWhile_sublist _).subset hx, h3⟩

theorem searchHole_origin {fuel size align vend : ℕ} {σ' : Vm} {r : Option ℕ}
    (hcache : σ.freeVmapCache = 0 ∨ σ.freeVmapCache ∈ σ.list)
    (h : searchHole W fuel σ size align vstart vend = some (σ', r)) :
    σ'.flags = σ.flags ∧ ∀ a, r = some a → Origin W σ align vstart a := by
  unfold searchHole at h
  dsimp only at h
  split_ifs at h with h1 h2 h3
  · exact searchNocache_origin h
  · exact searchNocache_origin (σ := { σ with cachedVstart := vstart, cachedAlign := align }) h
  · obtain ⟨rfl, rfl⟩ := Prod.mk.inj (Option.some.inj h.symm)
    exact ⟨rfl, fun a hr => by cases hr⟩
  · obtain ⟨e1, e2⟩ := Prod.ext_iff.mp (Option.some.inj h)
    refine ⟨?_, fun a hr => ?_⟩
    · rw [← show _ = σ' from e1, walk_flags]
    · -- the walk starts behind the cached area
      rcases walk_origin (e2.trans hr) with h4 | ⟨x, hx, h4⟩
      · exact Or.inr ⟨_, hcache.resolve_left fun h0 => h1 (Or.inl h0), h4⟩
      · exact Or.inr ⟨x, (List.dropWhile_sublist _).subset hx, h4⟩

theorem insertVmapArea_fields {fuel : ℕ} {σ' : Vm} (h : insertVmapArea fuel σ va = some σ') :
    σ'.vaStart = σ.vaStart ∧ σ'.vaEnd = σ.vaEnd ∧ σ'.flags = σ.flags := by
  unfold insertVmapArea at h
  simp only [Option.bind_eq_bind, Option.bind_eq_some_iff, Option.some.injEq] at h
  obtain ⟨-, -, -, -, -, -, rfl⟩ := h
  exact ⟨rfl, rfl, rfl⟩

/-- **The fields of a new area.** -/
theorem allocLoop_fields {fuel size k : ℕ} (hr : Request W size k) : ∀ {n : ℕ} {σ σ' : Vm},
    Inv vstart vend σ → NoWrap W σ (2 ^ k) vstart →
    allocLoop W fuel va size (2 ^ k) vstart vend n σ = some σ' →
    ∃ a, Origin W σ (2 ^ k) vstart a ∧ σ'.vaStart = Function.update σ.vaStart va a ∧
      σ'.vaEnd = Function.update σ.vaEnd va (a + size) ∧ σ'.flags = Function.update σ.flags va 0
  | 0, _, _, _, _, h => by cases h
  | n + 1, σ, σ', hinv, hnw, h => by
    rw [allocLoop] at h
    simp only [Option.bind_eq_bind, Option.bind_eq_some_iff] at h
    obtain ⟨⟨σ₁, found⟩, hsearch, h⟩ := h
    obtain ⟨hq, hfound⟩ := searchHole_spec hr hinv hnw hsearch
    obtain ⟨hflags, horigin⟩ := searchHole_origin hinv.cache hsearch
    have hretry : allocLoop W fuel va size (2 ^ k) vstart vend n σ₁ = some σ' →
        ∃ a, Origin W σ (2 ^ k) vstart a ∧ σ'.vaStart = Function.update σ.vaStart va a ∧
          σ'.vaEnd = Function.update σ.vaEnd va (a + size) ∧
          σ'.flags = Function.update σ.flags va 0 := by
      intro h'
      obtain ⟨a, h1, h2, h3, h4⟩ := allocLoop_fields hr (hinv.quiet hq) (hnw.quiet hq) h'
      refine ⟨a, ?_, by rw [h2, hq.vaStart], by rw [h3, hq.vaEnd], by rw [h4, hflags]⟩
      unfold Origin at h1 ⊢
      rwa [hq.list, hq.vaEnd] at h1
    cases found with
    | none => exact hretry h
    | some a =>
      simp only [addW_eq (hfound a rfl).fits] at h
      split_ifs at h with hov
      · exact hretry h
      · obtain ⟨σ₂, hins, h⟩ := Option.bind_eq_some_iff.mp h
        obtain rfl := Option.some.inj h
        obtain ⟨e1, e2, e3⟩ := insertVmapArea_fields hins
        refine ⟨a, horigin a rfl, ?_, ?_, ?_⟩
        · rw [← hq.vaStart]
          exact e1
        · rw [← hq.vaEnd]
          exact e2
        · rw [← hflags]
          exact e3

/-! ### `__free_vmap_area` -/

/-- The cache that a free leaves is `NULL` or another area. -/
theorem freeCache_spec {fuel cache : ℕ} (hinv : Inv vstart vend σ) (hva : va ∈ σ.list)
    (h : freeCache fuel σ va = some cache) : cache = 0 ∨ cache ∈ σ.list ∧ cache ≠ va := by
  unfold freeCache at h
  split_ifs at h with h1 h2 h3
  · exact Or.inl (Option.some.inj h).symm
  · exact Or.inl (Option.some.inj h).symm
  · obtain ⟨t, ht, -, hin⟩ := hinv.tree
    obtain ⟨pre, post, hsplit⟩ := List.append_of_mem hva
    have hprev := rbPrev_result ht (hin.trans hsplit) h
    by_cases hnil : pre = []
    · left
      rw [hprev, hnil]
      rfl
    · right
      have hmem := lastPtr_mem hnil
      have hnd := hinv.nodes.1
      rw [hsplit, List.nodup_append] at hnd
      rw [hprev, hsplit]
      exact ⟨List.mem_append_left _ hmem, hnd.2.2 _ hmem va List.mem_cons_self⟩
  · right
    rw [← Option.some.inj h]
    refine ⟨hinv.cache.resolve_left h1, fun he => h3 ?_⟩
    rw [he]

/-- **`__free_vmap_area`** takes the area out of the tree and of the list. -/
theorem freeVmapArea_spec {fuel : ℕ} {σ' : Vm} (hinv : Inv vstart vend σ) (hva : va ∈ σ.list)
    (h : freeVmapArea fuel σ va = some σ') : Inv vstart vend σ' ∧ σ'.list = σ.list.erase va ∧
      σ'.vaStart = σ.vaStart ∧ σ'.vaEnd = σ.vaEnd := by
  unfold freeVmapArea at h
  obtain ⟨t, ht, hrb, hin⟩ := hinv.tree
  rw [← hin] at hva
  rw [if_neg (not_empty_node ht hva)] at h
  simp only [Option.bind_eq_bind, Option.bind_eq_some_iff] at h
  obtain ⟨cache, hcache, rb, herase, h⟩ := h
  obtain rfl := Option.some.inj h
  obtain ⟨t', ht', hrb', hin'⟩ := erase_result ht hrb hva herase
  have hnot : va ∉ t'.inorder := by
    rw [hin', ht.nodup.mem_erase_iff]
    simp
  -- clearing the freed node does not touch the tree
  have hclr : TreeOf (rb.setPc va va) t' := by
    refine ⟨ht'.root, rep_congr (s := rb) (fun x hx => ?_) ht'.tree, ht'.nodup⟩
    have hxv : x ≠ va := fun he => hnot (he ▸ hx)
    simp [Same, hxv]
  have hsub : (σ.list.erase va).Sublist σ.list := List.erase_sublist
  refine ⟨⟨⟨t', hclr, hrb', by rw [hin', hin]⟩, hinv.apart.sublist hsub,
    fun a ha => hinv.range a (hsub.subset ha), ?_⟩, rfl, rfl, rfl⟩
  rcases freeCache_spec hinv (hin ▸ hva) hcache with h0 | ⟨hmem, hne⟩
  · exact Or.inl h0
  · exact Or.inr ((List.mem_erase_of_ne hne).mpr hmem)

/-- A live area can be freed: with enough fuel the call returns. -/
theorem freeVmapArea_of_lt {fuel : ℕ} (hinv : Inv vstart vend σ) (hva : va ∈ σ.list)
    (hf : σ.list.length < fuel) : ∃ σ', freeVmapArea fuel σ va = some σ' := by
  obtain ⟨t, ht, hrb, hin⟩ := hinv.tree
  rw [← hin] at hva hf
  have hcache : ∃ c, freeCache fuel σ va = some c := by
    unfold freeCache
    split_ifs
    · exact ⟨_, rfl⟩
    · exact ⟨_, rfl⟩
    · obtain ⟨pre, post, hsplit⟩ := List.append_of_mem hva
      exact ⟨_, rbPrev_spec _ ht hsplit (by omega)⟩
    · exact ⟨_, rfl⟩
  obtain ⟨c, hc⟩ := hcache
  obtain ⟨rb, -, herase, -⟩ := Erase.rbEraseWith_spec dummyCallbacks
    (Callbacks.eraseRule_true _) fuel ht trivial hrb hva hf.le
  refine ⟨{ σ with
    rb := rb.setPc va va, list := σ.list.erase va, freeVmapCache := c }, ?_⟩
  unfold freeVmapArea rbErase
  rw [if_neg (not_empty_node ht hva), hc, herase]
  rfl

theorem freeVmapArea_returns (hinv : Inv vstart vend σ) (hva : va ∈ σ.list) :
    ∃ fuel σ', freeVmapArea fuel σ va = some σ' :=
  ⟨_, freeVmapArea_of_lt hinv hva (Nat.lt_succ_self _)⟩

/-! ### Runs -/

/-- The globals, and the live areas with the alignment each was asked for. -/
structure System where
  st : Vm
  live : List (ℕ × ℕ)

/-- The live areas after a request for the alignment `align`. -/
def grant (live : List (ℕ × ℕ)) (align : ℕ) : Option ℕ → List (ℕ × ℕ)
  | none => live
  | some va => (va, align) :: live

/-- One call that returns: `alloc_vmap_area` for whole pages with a power of two as alignment, where
`kmalloc_node` failed or gave memory that no live area uses, or `__free_vmap_area` of a live area.
`P` restricts the state and the alignment that a request may meet. -/
inductive Step (W vstart vend : ℕ) (P : Vm → ℕ → Prop) : System → System → Prop
  | alloc {σ σ' : Vm} {live : List (ℕ × ℕ)} {fuel size k va : ℕ} {r : Option ℕ}
      (hpage : 4096 ∣ size) (hpos : 0 < size) (hsize : size < 2 ^ W) (hk : k < W)
      (hva : va = 0 ∨ Addr va ∧ va ∉ live.map Prod.fst) (hP : P σ (2 ^ k))
      (h : allocVmapArea W fuel σ va size (2 ^ k) vstart vend = some (σ', r)) :
      Step W vstart vend P ⟨σ, live⟩ ⟨σ', grant live (2 ^ k) r⟩
  | free {σ σ' : Vm} {live : List (ℕ × ℕ)} {fuel : ℕ} {a : ℕ × ℕ} (ha : a ∈ live)
      (h : freeVmapArea fuel σ a.1 = some σ') : Step W vstart vend P ⟨σ, live⟩ ⟨σ', live.erase a⟩

/-- **The set of areas as its users see it.** The live areas are disjoint, inside `[vstart, vend)`
and aligned; the list is sorted, holds the live areas and is the in-order sequence of the tree; the
cache is empty or a node of the tree; and a search finds the one area that holds an address. -/
structure AreaSet (vstart vend : ℕ) (x : System) : Prop where
  disjoint : x.live.Pairwise fun a b => Apart x.st a.1 b.1 ∨ Apart x.st b.1 a.1
  range : ∀ a ∈ x.live,
    vstart ≤ x.st.vaStart a.1 ∧ x.st.vaStart a.1 < x.st.vaEnd a.1 ∧ x.st.vaEnd a.1 ≤ vend
  aligned : ∀ a ∈ x.live, a.2 ∣ x.st.vaStart a.1
  listed : (x.live.map Prod.fst).Perm x.st.list
  sorted : x.st.list.Pairwise fun a b => x.st.vaStart a < x.st.vaStart b
  tree : ∃ t, TreeOf x.st.rb t ∧ t.inorder = x.st.list
  cache : x.st.freeVmapCache = 0 ∨ x.st.freeVmapCache ∈ x.st.list
  find : ∀ addr fuel, x.st.list.length < fuel → ∃ r, findVmapArea fuel x.st addr = some r ∧
    ((r ∈ x.st.list ∧ ∀ a ∈ x.st.list, Covers x.st a addr ↔ a = r) ∨
      (r = 0 ∧ ∀ a ∈ x.st.list, ¬ Covers x.st a addr))
  free : ∀ a ∈ x.live, ∃ fuel σ', freeVmapArea fuel x.st a.1 = some σ'

/-- The invariant of a run. -/
structure SysInv (vstart vend : ℕ) (x : System) : Prop where
  inv : Inv vstart vend x.st
  listed : (x.live.map Prod.fst).Perm x.st.list
  aligned : ∀ a ∈ x.live, a.2 ∣ x.st.vaStart a.1

theorem SysInv.mem {x : System} (h : SysInv vstart vend x) {a : ℕ × ℕ} (ha : a ∈ x.live) :
    a.1 ∈ x.st.list := h.listed.subset (List.mem_map_of_mem ha)

theorem SysInv.areaSet {x : System} (h : SysInv vstart vend x) : AreaSet vstart vend x where
  disjoint := by
    have hnd : (x.live.map Prod.fst).Nodup := h.listed.nodup_iff.mpr h.inv.nodes.1
    rw [List.Nodup, List.pairwise_map] at hnd
    refine List.Pairwise.imp_of_mem ?_ hnd
    intro a b ha hb hne
    exact h.inv.apart_or (h.mem ha) (h.mem hb) hne
  range a ha := h.inv.range a.1 (h.mem ha)
  aligned := h.aligned
  listed := h.listed
  sorted := by
    refine List.Pairwise.imp_of_mem ?_ h.inv.apart
    intro a b ha _ hab
    exact (h.inv.range a ha).2.1.trans_le hab
  tree := h.inv.tree.imp fun _ ht => ⟨ht.1, ht.2.2⟩
  cache := h.inv.cache
  find addr _ hf := findVmapArea_spec h.inv addr hf
  free _ ha := freeVmapArea_returns h.inv (h.mem ha)

theorem step_sysInv {x y : System} (h : SysInv vstart vend x)
    (hst : Step W vstart vend (fun σ align => NoWrap W σ align vstart) x y) :
    SysInv vstart vend y := by
  cases hst with
  | @alloc σ σ' live fuel size k va r hpage hpos hsize hk hva hP hcall =>
    unfold allocVmapArea at hcall
    split_ifs at hcall with h0
    · obtain ⟨rfl, rfl⟩ := Prod.mk.inj (Option.some.inj hcall)
      exact h
    · simp only [Option.bind_eq_bind, Option.bind_eq_some_iff] at hcall
      obtain ⟨σ₁, hloop, hcall⟩ := hcall
      obtain ⟨rfl, rfl⟩ := Prod.mk.inj (Option.some.inj hcall)
      obtain ⟨hadr, hfresh⟩ := hva.resolve_left h0
      have hfresh' : va ∉ σ.list := fun hx => hfresh (h.listed.symm.subset hx)
      obtain ⟨hinv, ⟨pre, post, hl, hl'⟩, hal, hframe⟩ :=
        allocLoop_spec ⟨hpos, hsize, hk.le⟩ h.inv hP hadr hfresh' hloop
      refine ⟨hinv, ?_, ?_⟩
      · have hperm : (live.map Prod.fst).Perm σ.list := h.listed
        rw [hl] at hperm
        show (va :: live.map Prod.fst).Perm σ₁.list
        rw [hl']
        exact (hperm.cons va).trans List.perm_middle.symm
      · intro a ha
        rcases List.mem_cons.mp ha with rfl | ha
        · exact hal
        · have hne : a.1 ≠ va := fun he => hfresh' (he ▸ h.mem ha)
          show a.2 ∣ σ₁.vaStart a.1
          rw [(hframe a.1 hne).1]
          exact h.aligned a ha
  | @free σ σ' live fuel a ha hcall =>
    obtain ⟨hinv, hlist, hS, hE⟩ := freeVmapArea_spec h.inv (h.mem ha) hcall
    refine ⟨hinv, ?_, ?_⟩
    · show ((live.erase a).map Prod.fst).Perm σ'.list
      rw [hlist]
      have hperm : (live.map Prod.fst).Perm σ.list := h.listed
      have h1 : (a.1 :: (live.erase a).map Prod.fst).Perm (live.map Prod.fst) :=
        (List.perm_cons_erase ha).symm.map Prod.fst
      have h2 := (h1.trans hperm).erase a.1
      rwa [List.erase_cons_head] at h2
    · intro b hb
      show b.2 ∣ σ'.vaStart b.1
      rw [hS]
      exact h.aligned b (List.mem_of_mem_erase hb)

/-- The globals before the first call. -/
def init : Vm where
  rb := ⟨fun _ => 0, fun _ _ => 0, 0, ()⟩
  list := []
  vaStart := fun _ => 0
  vaEnd := fun _ => 0
  flags := fun _ => 0
  freeVmapCache := 0
  cachedHoleSize := 0
  cachedVstart := 0
  cachedAlign := 0

theorem init_sysInv (vstart vend : ℕ) : SysInv vstart vend ⟨init, []⟩ where
  inv := ⟨⟨.nil, ⟨rfl, trivial, List.nodup_nil⟩, ⟨rfl, trivial, 0, rfl⟩, rfl⟩, List.Pairwise.nil,
    fun _ ha => absurd ha List.not_mem_nil, Or.inl rfl⟩
  listed := List.Perm.nil
  aligned := fun _ ha => absurd ha List.not_mem_nil

/-- **The set of areas.** Along every run of allocations and frees in which no request's rounding
wraps around, the live areas, the list, the tree and the cache are consistent. -/
theorem reachable_areaSet {x : System}
    (h : Relation.ReflTransGen (Step W vstart vend fun σ align => NoWrap W σ align vstart)
      ⟨init, []⟩ x) : AreaSet vstart vend x :=
  (Lib.Run.invariant (I := SysInv vstart vend) (init_sysInv vstart vend)
    (fun _ _ => step_sysInv) h).areaSet

/-- The state after a request of the 32-bit system that returns. -/
def request (σ : Vm) (va size k : ℕ) : Vm :=
  ((allocVmapArea 32 4 σ va size (2 ^ k) 0xf0800000 0xff800000).getD (σ, none)).1

theorem request_eq {σ : Vm} {va size k : ℕ}
    (h : (allocVmapArea 32 4 σ va size (2 ^ k) 0xf0800000 0xff800000).map Prod.snd =
      some (some va)) :
    allocVmapArea 32 4 σ va size (2 ^ k) 0xf0800000 0xff800000 =
      some (request σ va size k, some va) := by
  obtain ⟨p, hp, hsnd⟩ := Option.map_eq_some_iff.mp h
  unfold request
  rw [hp, ← hsnd]
  rfl

/-- A page, and then a page on a boundary of sixteen pages. -/
theorem reachable_areaSet_two : AreaSet 0xf0800000 0xff800000
    ⟨request (request init 4 0x1000 0) 8 0x1000 16, [(8, 2 ^ 16), (4, 2 ^ 0)]⟩ := by
  have h4 : Addr 4 := ⟨by decide, by decide⟩
  have h8 : Addr 8 := ⟨by decide, by decide⟩
  have hnw : NoWrap 32 init (2 ^ 0) 0xf0800000 := ⟨by decide, fun _ ha => absurd ha List.not_mem_nil⟩
  have hnw' : NoWrap 32 (request init 4 0x1000 0) (2 ^ 16) 0xf0800000 :=
    ⟨by decide, by decide +kernel⟩
  refine reachable_areaSet (W := 32) (.tail (.single (Step.alloc (k := 0) ?_ ?_ ?_ ?_
    (Or.inr ⟨h4, List.not_mem_nil⟩) hnw (request_eq ?_))) (Step.alloc (k := 16) ?_ ?_ ?_
    ?_ (Or.inr ⟨h8, by decide⟩) hnw' (request_eq ?_)))
  all_goals decide +kernel

/-- A mapping of 232 MiB and its guard page ends above `0xff000000`. Rounding that end up to 16 MiB
wraps to `0`, so the next request is given an area below `vstart`. -/
theorem not_areaSet_of_wrap : ¬ ∀ x, Relation.ReflTransGen
    (Step 32 0xf0800000 0xff800000 fun _ _ => True) ⟨init, []⟩ x →
      AreaSet 0xf0800000 0xff800000 x := by
  intro hall
  have h4 : Addr 4 := ⟨by decide, by decide⟩
  have h8 : Addr 8 := ⟨by decide, by decide⟩
  have hset : AreaSet 0xf0800000 0xff800000
      ⟨request (request init 4 0xe801000 0) 8 0x1001000 24, [(8, 2 ^ 24), (4, 2 ^ 0)]⟩ := by
    refine hall _ (.tail (.single (Step.alloc (k := 0) ?_ ?_ ?_ ?_
      (Or.inr ⟨h4, List.not_mem_nil⟩) trivial (request_eq ?_))) (Step.alloc (k := 24) ?_
      ?_ ?_ ?_ (Or.inr ⟨h8, by decide⟩) trivial (request_eq ?_)))
    all_goals decide +kernel
  have hzero : (request (request init 4 0xe801000 0) 8 0x1001000 24).vaStart 8 = 0 := by
    decide +kernel
  have hrange := (hset.range (8, 2 ^ 24) (by simp)).1
  simp only [hzero] at hrange
  omega

end HardStack.Vmalloc.Run
