import HardStack.Vmalloc.Run

/-! # When `alloc_vmap_area` returns

A request of alignment 1 is served from the first hole that is large enough, counted from where the
search starts: from `vstart`, or from the end of the cached area. If there is none, the search ends at
`overflow`, and since `purged` is never set the code goes back to `retry`. The search leaves the cache as
it is and no hole it has noted is larger than the request, so it starts at the same address again
(`searchHole_room`): the call never returns. -/

namespace HardStack.Vmalloc.Complete

open HardStack.Lib.Word HardStack.Lib.RbTree HardStack.Rbtree.Model HardStack.Rbtree.Layout
open HardStack.Rbtree HardStack.Rbtree.Neighbour HardStack.Rbtree.Run HardStack.Vmalloc.Model
open HardStack.Vmalloc.Areas HardStack.Vmalloc.Run

variable {W vstart vend size fuel va : ℕ} {σ σ' : Vm} {K : Ctx ℕ}

/-- A hole of at least `size` bytes in `[lo, vend)` between the live areas. -/
def Room (σ : Vm) (size lo vend : ℕ) : Prop :=
  ∃ x, lo ≤ x ∧ x + size ≤ vend ∧ ∀ a ∈ σ.list, σ.vaEnd a ≤ x ∨ x + size ≤ σ.vaStart a

/-- Where the search for a request of alignment 1 starts. -/
def searchStart (σ : Vm) (size vstart : ℕ) : ℕ :=
  if σ.freeVmapCache = 0 ∨ size < σ.cachedHoleSize ∨ vstart < σ.cachedVstart ∨ 1 < σ.cachedAlign then
    vstart
  else σ.vaEnd σ.freeVmapCache

theorem Room.quiet {lo : ℕ} (hq : Quiet σ σ') : Room σ' size lo vend ↔ Room σ size lo vend := by
  unfold Room
  rw [hq.list, hq.vaStart, hq.vaEnd]

theorem alignUp_one {x : ℕ} (hx : x < 2 ^ W) : alignUp W x 1 = x := by
  have h := alignUp_eq (W := W) (k := 0) (Nat.zero_le W) x
  rw [Nat.pow_zero] at h
  rw [h, Nat.add_sub_cancel, Nat.mod_eq_of_lt hx]
  omega

/-- No rounding to alignment 1 wraps around. -/
theorem noWrap_one (h : Inv vstart vend σ) (hs : vstart ≤ vend) (he : vend < 2 ^ W) :
    NoWrap W σ (2 ^ 0) vstart := by
  refine ⟨by omega, fun a ha => ?_⟩
  have := (h.range a ha).2.2
  omega

/-! ### The walk -/

/-- The walk notes the size of holes, and does nothing else to the state. -/
theorem walk_state {align : ℕ} : ∀ {post : List ℕ} {σ : Vm} {addr : ℕ},
    ∃ c, (walk W size align vend post σ addr).1 = { σ with cachedHoleSize := c }
  | [], σ, _ => ⟨σ.cachedHoleSize, rfl⟩
  | first :: rest, σ, addr => by
    have hn : ∃ c, noted W σ first addr = { σ with cachedHoleSize := c } := by
      unfold noted
      split_ifs
      · exact ⟨_, rfl⟩
      · exact ⟨σ.cachedHoleSize, rfl⟩
    obtain ⟨c, hc⟩ := hn
    rw [walk_cons, hc]
    split_ifs
    · exact ⟨c, rfl⟩
    · obtain ⟨d, hd⟩ := @walk_state align rest { σ with cachedHoleSize := c }
        (alignUp W (σ.vaEnd first) align)
      exact ⟨d, hd⟩
    · exact ⟨σ.cachedHoleSize, rfl⟩

/-- A hole that the walk passes is smaller than the request. -/
theorem walk_holeSize : ∀ {post : List ℕ} {σ : Vm} {addr : ℕ}, (∀ a ∈ post, σ.vaEnd a < 2 ^ W) →
    addr + size < 2 ^ W → size < 2 ^ W → σ.cachedHoleSize ≤ size →
    (walk W size 1 vend post σ addr).1.cachedHoleSize ≤ size
  | [], _, _, _, _, _, h => h
  | first :: rest, σ, addr, hpost, haddr, hsz, h => by
    obtain ⟨-, he, -⟩ := noted_fields (W := W) σ first addr
    rw [walk_cons, addW_eq haddr]
    by_cases h1 : addr + size > σ.vaStart first ∧ addr + size ≤ vend
    · have hn : (noted W σ first addr).cachedHoleSize ≤ size := by
        unfold noted
        rw [addW_eq (show addr + σ.cachedHoleSize < 2 ^ W by omega)]
        split_ifs with h2
        · show (σ.vaStart first + 2 ^ W - addr) % 2 ^ W ≤ size
          have hsub : σ.vaStart first + 2 ^ W - addr = σ.vaStart first - addr + 2 ^ W := by omega
          rw [hsub, Nat.add_mod_right, Nat.mod_eq_of_lt (by omega)]
          omega
        · exact h
      have hfirst := hpost first List.mem_cons_self
      rw [if_pos h1, alignUp_one hfirst]
      split_ifs with h2
      · exact hn
      · rw [addW_lt_iff hfirst hsz, not_le] at h2
        exact walk_holeSize (fun a ha => by rw [he]; exact hpost a (List.mem_cons_of_mem _ ha)) h2 hsz
          hn
    · rw [if_neg h1]
      exact h

/-- **The walk** finds a hole if there is one from its position on. -/
theorem walk_room (hend : vend < 2 ^ W) (hsz : size < 2 ^ W) : ∀ {post : List ℕ} {σ : Vm} {addr : ℕ},
    (∀ a ∈ post, σ.vaEnd a ≤ vend) → addr + size < 2 ^ W →
    (∀ a, (walk W size 1 vend post σ addr).2 = some a → vend < a + size) →
    ∀ x, addr ≤ x → x + size ≤ vend → ∃ b ∈ post, ¬ (σ.vaEnd b ≤ x ∨ x + size ≤ σ.vaStart b)
  | [], _, addr, _, _, hno, x, hx, hx' => by
    have := hno addr rfl
    omega
  | first :: rest, σ, addr, hpost, haddr, hno, x, hx, hx' => by
    obtain ⟨-, he, -⟩ := noted_fields (W := W) σ first addr
    have hs : (noted W σ first addr).vaStart = σ.vaStart := by
      unfold noted
      split_ifs <;> rfl
    rw [walk_cons, addW_eq haddr] at hno
    by_cases h1 : addr + size > σ.vaStart first ∧ addr + size ≤ vend
    · have hfirst := hpost first List.mem_cons_self
      rw [if_pos h1, alignUp_one (by omega)] at hno
      by_cases hxf : σ.vaEnd first ≤ x
      · -- behind the first area the walk goes on
        by_cases h2 : addW W (σ.vaEnd first) size < σ.vaEnd first
        · rw [addW_lt_iff (by omega) hsz] at h2
          omega
        · rw [if_neg h2] at hno
          rw [addW_lt_iff (by omega) hsz, not_le] at h2
          obtain ⟨b, hb, hnot⟩ := @walk_room hend hsz rest (noted W σ first addr) _
            (fun a ha => by rw [he]; exact hpost a (List.mem_cons_of_mem _ ha)) h2 hno x hxf hx'
          rw [he, hs] at hnot
          exact ⟨b, List.mem_cons_of_mem _ hb, hnot⟩
      · exact ⟨first, List.mem_cons_self, by omega⟩
    · rw [if_neg h1] at hno
      have := hno addr rfl
      omega

/-- What the walk finds lies at or above its start. -/
theorem walk_ge {post : List ℕ} {addr lo a : ℕ} (hlo : lo ≤ addr)
    (hpost : ∀ b ∈ post, lo ≤ σ.vaEnd b ∧ σ.vaEnd b < 2 ^ W)
    (h : (walk W size 1 vend post σ addr).2 = some a) : lo ≤ a := by
  rcases walk_origin h with rfl | ⟨x, hx, rfl⟩
  · exact hlo
  · rw [alignUp_one (hpost x hx).2]
    exact (hpost x hx).1

/-! ### The search -/

/-- The bounds of the range and of a request. -/
structure Bounds (W : ℕ) (size vstart vend : ℕ) : Prop where
  size_pos : 0 < size
  size_lt : size < 2 ^ W
  start_le : vstart ≤ vend
  end_lt : vend < 2 ^ W

theorem Bounds.request (hb : Bounds W size vstart vend) : Request W size 0 :=
  ⟨hb.size_pos, hb.size_lt, Nat.zero_le W⟩

theorem searchNocache_state {r : Option ℕ}
    (h : searchNocache W fuel σ size 1 vstart vend = some (σ', r)) :
    σ'.freeVmapCache = 0 := by
  unfold searchNocache at h
  dsimp only at h
  split_ifs at h with h1
  · obtain ⟨rfl, -⟩ := Prod.mk.inj (Option.some.inj h)
    rfl
  · obtain ⟨first, -, h⟩ := Option.bind_eq_some_iff.mp h
    split_ifs at h with h2
    · obtain ⟨rfl, -⟩ := Prod.mk.inj (Option.some.inj h)
      rfl
    · obtain ⟨e1, -⟩ := Prod.ext_iff.mp (Option.some.inj h)
      obtain ⟨c, hc⟩ := @walk_state W vend size 1 (σ.list.dropWhile (· ≠ first))
        { σ with
          cachedHoleSize := 0, freeVmapCache := 0, cachedVstart := vstart, cachedAlign := 1 }
        (alignUp W vstart 1)
      rw [← show _ = σ' from e1, hc]

/-- **The search without the cache** finds a hole if there is one. -/
theorem searchNocache_room (hb : Bounds W size vstart vend) (hinv : Inv vstart vend σ) {r : Option ℕ}
    (h : searchNocache W fuel σ size 1 vstart vend = some (σ', r))
    (hno : ∀ a, r = some a → vend < a + size) : ¬ Room σ size vstart vend := by
  rintro ⟨x, hx, hx', hfree⟩
  obtain ⟨-, hsz, hle, hend⟩ := hb
  unfold searchNocache at h
  dsimp only at h
  rw [alignUp_one (by omega), addW_eq (by omega), if_neg (by omega)] at h
  obtain ⟨first, hfirst, h⟩ := Option.bind_eq_some_iff.mp h
  set τ : Vm := { σ with
    cachedHoleSize := 0, freeVmapCache := 0, cachedVstart := vstart, cachedAlign := 1 } with hτ
  have hinvτ : Inv vstart vend τ := hinv.quiet ⟨rfl, rfl, rfl, rfl, Or.inl rfl⟩
  obtain ⟨t, ht, -, hin⟩ := hinvτ.tree
  have hsort := hinvτ.sorted
  have hrange : ∀ a ∈ σ.list, σ.vaEnd a ≤ vend := fun a ha => (hinv.range a ha).2.2
  obtain ⟨hnd, hne⟩ := hinv.nodes
  rw [← hin] at hsort
  rw [ht.root] at hfirst
  obtain ⟨pre, post, hsplit, hhead, -⟩ := searchFirst_spec (K := []) (at_iff.mpr ht) hsort
    (by simp [Ctx.before]) rfl hfirst
  have hlist : σ.list = pre ++ post := by
    rw [← hin]
    exact hsplit
  have hpost : ∀ a ∈ post, σ.vaEnd a ≤ vend := fun a ha =>
    hrange a (by rw [hlist]; exact List.mem_append_right _ ha)
  have hwalk : (walk W size 1 vend post τ vstart).2 = r := by
    rcases post with _ | ⟨y, post⟩
    · rw [if_pos (hhead.trans List.headD_nil)] at h
      exact (Prod.mk.inj (Option.some.inj h)).2
    · have hy : first = y := hhead
      have hy0 : y ≠ 0 := hne y (by rw [hlist]; simp)
      have hdrop : σ.list.dropWhile (· ≠ y) = y :: post := by
        rw [hlist] at hnd
        conv_lhs => rw [hlist]
        exact dropWhile_eq hnd
      rw [hy, if_neg hy0, hdrop] at h
      exact (Prod.ext_iff.mp (Option.some.inj h)).2
  obtain ⟨b, hb, hnot⟩ := walk_room hend hsz (σ := τ) hpost (by omega)
    (fun a ha => hno a (hwalk ▸ ha)) x hx hx'
  exact hnot (hfree b (by rw [hlist]; exact List.mem_append_right _ hb))

/-- **The search** finds a hole if there is one where it starts. If it does not, it will start at the
same address again. -/
theorem searchHole_room (hb : Bounds W size vstart vend) (hinv : Inv vstart vend σ) {r : Option ℕ}
    (h : searchHole W fuel σ size 1 vstart vend = some (σ', r)) :
    (∀ a, r = some a → searchStart σ size vstart ≤ a) ∧
    ((∀ a, r = some a → vend < a + size) → ¬ Room σ size (searchStart σ size vstart) vend ∧
      searchStart σ' size vstart = searchStart σ size vstart) := by
  obtain ⟨-, hfound⟩ := searchHole_spec hb.request hinv (noWrap_one hinv hb.start_le hb.end_lt) h
  unfold searchHole at h
  dsimp only at h
  by_cases h1 : σ.freeVmapCache = 0 ∨ size < σ.cachedHoleSize ∨ vstart < σ.cachedVstart ∨
      1 < σ.cachedAlign
  · have hs : searchStart σ size vstart = vstart := if_pos h1
    rw [if_pos h1] at h
    rw [hs]
    exact ⟨fun a ha => (hfound a ha).ge, fun hno => ⟨searchNocache_room hb hinv h hno,
      if_pos (Or.inl (searchNocache_state h))⟩⟩
  · have hs : searchStart σ size vstart = σ.vaEnd σ.freeVmapCache := if_neg h1
    have hcache : σ.freeVmapCache ∈ σ.list := hinv.cache.resolve_left fun h0 => h1 (Or.inl h0)
    obtain ⟨-, hsz, hle, hend⟩ := hb
    have hrc := hinv.range _ hcache
    rw [if_neg h1, alignUp_one (by omega), if_neg (by omega)] at h
    rw [hs]
    obtain ⟨pre, post, hlist⟩ := List.append_of_mem hcache
    have hord := hinv.apart
    have hnd := hinv.nodes.1
    have hdrop : σ.list.dropWhile (· ≠ σ.freeVmapCache) = σ.freeVmapCache :: post := by
      rw [hlist] at hnd
      conv_lhs => rw [hlist]
      exact dropWhile_eq hnd
    rw [hlist, List.pairwise_append, List.pairwise_cons] at hord
    by_cases h2 : addW W (σ.vaEnd σ.freeVmapCache) size < σ.vaEnd σ.freeVmapCache
    · rw [if_pos h2] at h
      obtain ⟨rfl, rfl⟩ := Prod.mk.inj (Option.some.inj h)
      rw [addW_lt_iff (by omega) hsz] at h2
      refine ⟨fun a ha => (by cases ha), fun _ => ⟨?_, ?_⟩⟩
      · rintro ⟨x, hx, hx', -⟩
        omega
      · exact if_neg (show ¬ (σ.freeVmapCache = 0 ∨ size < σ.cachedHoleSize ∨ vstart < vstart ∨ 1 < 1)
          by omega)
    · rw [if_neg h2, hdrop] at h
      rw [addW_lt_iff (by omega) hsz, not_le] at h2
      obtain ⟨e1, e2⟩ := Prod.ext_iff.mp (Option.some.inj h)
      have hin : ∀ b ∈ σ.freeVmapCache :: post, b ∈ σ.list := fun b hb => by
        rw [hlist]
        exact List.mem_append_right _ hb
      have hge : ∀ b ∈ σ.freeVmapCache :: post, σ.vaEnd σ.freeVmapCache ≤ σ.vaEnd b := by
        intro b hb
        rcases List.mem_cons.mp hb with rfl | hb
        · exact le_rfl
        · have hap : σ.vaEnd σ.freeVmapCache ≤ σ.vaStart b := hord.2.1.1 b hb
          have := (hinv.range b (hin b (List.mem_cons_of_mem _ hb))).2.1
          omega
      have hle' : ∀ b ∈ σ.freeVmapCache :: post, σ.vaEnd b ≤ vend := fun b hb =>
        (hinv.range b (hin b hb)).2.2
      set τ : Vm := { σ with cachedVstart := vstart, cachedAlign := 1 } with hτ
      refine ⟨fun a ha => walk_ge (σ := τ) le_rfl
        (fun b hb => ⟨hge b hb, (hle' b hb).trans_lt hend⟩) (e2.trans ha), fun hno => ⟨?_, ?_⟩⟩
      · rintro ⟨x, hx, hx', hfree⟩
        obtain ⟨b, hb, hnot⟩ := walk_room hend hsz (σ := τ) hle' h2
          (fun a ha => hno a (e2.symm.trans ha)) x hx hx'
        exact hnot (hfree b (hin b hb))
      · -- no hole that the walk has noted is larger than the request
        have hhole := @walk_holeSize _ vend _ _ τ _
          (fun b hb => (hle' b hb).trans_lt hend) h2 hsz
          (not_lt.mp fun hlt => h1 (Or.inr (Or.inl hlt)))
        obtain ⟨c, hc⟩ := @walk_state W vend size 1 (σ.freeVmapCache :: post) τ
          (σ.vaEnd σ.freeVmapCache)
        have hσ' : σ' = { τ with cachedHoleSize := c } := e1.symm.trans hc
        rw [hc] at hhole
        have hc' : c ≤ size := hhole
        rw [hσ']
        exact if_neg (show ¬ (σ.freeVmapCache = 0 ∨ size < c ∨ vstart < vstart ∨ 1 < 1) by omega)

/-! ### Enough fuel -/

theorem searchFirst_returns {addr : ℕ} : ∀ {t : CTree ℕ} {K : Ctx ℕ} {n first : ℕ}, At σ.rb K t →
    t.inorder.length < n → ∃ r, searchFirst σ addr n (ptr t) first = some r
  | .nil, _, n + 1, first, _, _ => ⟨first, by simp [searchFirst]⟩
  | .node c l p r, K, n + 1, first, hat, hn => by
    obtain ⟨hp, -, hl, hr, -, -⟩ := hat.tree
    have hin : (CTree.node c l p r).inorder = l.inorder ++ p :: r.inorder := rfl
    rw [hin, List.length_append, List.length_cons] at hn
    show ∃ q, searchFirst σ addr (n + 1) p first = some q
    rw [searchFirst, if_neg hp.1, hl, hr]
    split_ifs
    · exact ⟨p, rfl⟩
    · exact searchFirst_returns (K := ⟨.left, c, p, r⟩ :: K) (at_cons.mpr hat) (by omega)
    · exact searchFirst_returns (K := ⟨.right, c, p, l⟩ :: K) (at_cons.mpr hat) (by omega)

theorem searchNocache_returns (hinv : Inv vstart vend σ) (hf : σ.list.length < fuel) {align : ℕ} :
    ∃ p, searchNocache W fuel σ size align vstart vend = some p := by
  obtain ⟨t, ht, -, hin⟩ := hinv.tree
  have hτ : At { σ with
      cachedHoleSize := 0, freeVmapCache := 0, cachedVstart := vstart, cachedAlign := align }.rb
      [] t := at_iff.mpr ht
  rw [← hin] at hf
  obtain ⟨first, hfirst⟩ := @searchFirst_returns _ (alignUp W vstart align) _ _ _ 0 hτ hf
  unfold searchNocache
  dsimp only
  rw [ht.root, hfirst]
  simp only [Option.bind_eq_bind, Option.bind_some]
  split_ifs
  · exact ⟨_, rfl⟩
  · exact ⟨_, rfl⟩
  · exact ⟨_, rfl⟩

theorem searchHole_returns (hinv : Inv vstart vend σ) (hf : σ.list.length < fuel) {align : ℕ} :
    ∃ p, searchHole W fuel σ size align vstart vend = some p := by
  unfold searchHole
  dsimp only
  split_ifs
  · exact searchNocache_returns hinv hf
  · exact searchNocache_returns (σ := { σ with cachedVstart := vstart, cachedAlign := align })
      (hinv.quiet ⟨rfl, rfl, rfl, rfl, Or.inr rfl⟩) hf
  · exact ⟨_, rfl⟩
  · exact ⟨_, rfl⟩

/-- The descent does not reach the `BUG()`: no area is empty. -/
theorem insertLoop_returns (hva : σ.vaStart va < σ.vaEnd va) : ∀ {t : CTree ℕ} {K : Ctx ℕ} {n : ℕ}
    {link : Link}, At σ.rb K t → (∀ a ∈ t.inorder, σ.vaStart a < σ.vaEnd a) →
    t.inorder.length < n → ∃ r, insertLoop σ va n (ptr t) link = some r
  | .nil, _, n + 1, link, _, _, _ => ⟨link, by simp [insertLoop]⟩
  | .node c l p r, K, n + 1, link, hat, hpos, hn => by
    obtain ⟨hp, -, hl, hr, -, -⟩ := hat.tree
    have hin : (CTree.node c l p r).inorder = l.inorder ++ p :: r.inorder := rfl
    rw [hin] at hpos
    rw [hin, List.length_append, List.length_cons] at hn
    have hpp := hpos p (by simp)
    show ∃ q, insertLoop σ va (n + 1) p link = some q
    rw [insertLoop, if_neg hp.1, hl, hr]
    split_ifs with h1 h2
    · exact insertLoop_returns hva (K := ⟨.left, c, p, r⟩ :: K) (at_cons.mpr hat)
        (fun a ha => hpos a (List.mem_append_left _ ha)) (by omega)
    · exact insertLoop_returns hva (K := ⟨.right, c, p, l⟩ :: K) (at_cons.mpr hat)
        (fun a ha => hpos a (List.mem_append_right _ (List.mem_cons_of_mem _ ha))) (by omega)
    · omega

theorem insertVmapArea_returns {t : CTree ℕ} (ht : TreeOf σ.rb t) (hrb : t.RedBlack)
    (hin : t.inorder = σ.list) (hs : Sorted σ σ.list) (hadr : Addr va) (hfresh : va ∉ σ.list)
    (hva : σ.vaStart va < σ.vaEnd va) (hclear : ∀ a ∈ σ.list, Clear σ va a)
    (hf : σ.list.length + 2 ≤ fuel) : ∃ σ', insertVmapArea fuel σ va = some σ' := by
  rw [← hin] at hs hclear hfresh hf
  obtain ⟨link, hlink₀⟩ : ∃ link, insertLoop σ va fuel (ptr t) .root = some link :=
    insertLoop_returns hva (K := []) (at_iff.mpr ht) hs.pos (by omega)
  obtain ⟨K, hat, haround, hlink', -, -⟩ := insertLoop_spec hva (K := []) (at_iff.mpr ht) hs hclear
    (by simp [Ctx.before]) (by simp [Ctx.after]) hlink₀
  have haround' : K.around [] = t.inorder := haround
  obtain ⟨rb, t', hcolor, ht', -, hin'⟩ := rbInsert_spec dummyCallbacks fuel ht hrb hadr hfresh
    (haround' ▸ freeLink_linkOf hat) (by omega)
  rw [← haround', place_linkOf hat.nodup] at hin'
  have hlen : t'.inorder.length = t.inorder.length + 1 := by
    rw [hin', ← haround', Ctx.around_eq]
    simp only [List.nil_append, List.length_append, List.length_cons]
    omega
  have hprev := rbPrev_spec fuel ht' hin' (by omega)
  have hcolor' : rbInsertColor fuel (rbLinkNode σ.rb va link) va = some rb := by
    rw [hlink']
    exact hcolor
  unfold insertVmapArea
  rw [ht.root, hlink₀]
  simp only [Option.bind_eq_bind, Option.bind_some]
  rw [hcolor', Option.bind_some, hprev]
  exact ⟨_, rfl⟩

/-! ### `alloc_vmap_area` -/

/-- A hole of the search is room for the request. -/
theorem Hole.room {k a lo : ℕ} (h : Hole W σ size k vstart vend a) (hlo : lo ≤ a)
    (hend : a + size ≤ vend) : Room σ size lo vend := by
  obtain ⟨pre, post, hlist, hpre, hpost⟩ := h.hole hend
  refine ⟨a, hlo, hend, fun b hb => ?_⟩
  rw [hlist] at hb
  exact (List.mem_append.mp hb).imp (hpre b) (hpost b)

/-- What returns has found room where the search starts. -/
theorem room_of_allocLoop (hb : Bounds W size vstart vend) : ∀ {n : ℕ} {σ : Vm},
    Inv vstart vend σ → allocLoop W fuel va size 1 vstart vend n σ = some σ' →
    Room σ size (searchStart σ size vstart) vend
  | 0, _, _, h => by cases h
  | n + 1, σ, hinv, h => by
    rw [allocLoop] at h
    obtain ⟨⟨σ₁, found⟩, hsearch, h⟩ := Option.bind_eq_some_iff.mp h
    obtain ⟨hq, hfound⟩ := searchHole_spec hb.request hinv
      (noWrap_one hinv hb.start_le hb.end_lt) hsearch
    obtain ⟨hge, hno⟩ := searchHole_room hb hinv hsearch
    -- a second round starts where the first one did
    have hretry : (∀ a, found = some a → vend < a + size) →
        allocLoop W fuel va size 1 vstart vend n σ₁ = some σ' →
        Room σ size (searchStart σ size vstart) vend := by
      intro hno' h'
      have hrec := room_of_allocLoop hb (hinv.quiet hq) h'
      rwa [(hno hno').2, Room.quiet hq] at hrec
    rcases found with _ | a
    · exact hretry (fun a ha => (by cases ha)) h
    · have hole := hfound a rfl
      simp only [addW_eq hole.fits] at h
      split_ifs at h with hov
      · refine hretry (fun b hb => ?_) h
        rwa [← Option.some.inj hb]
      · exact Hole.room hole (hge a rfl) (not_lt.mp hov)

/-- Where the search finds a hole, the request is served in the first round. -/
theorem allocLoop_returns (hb : Bounds W size vstart vend) {n : ℕ} (hinv : Inv vstart vend σ)
    (hadr : Addr va) (hfresh : va ∉ σ.list) (hf : σ.list.length + 2 ≤ fuel)
    (hroom : Room σ size (searchStart σ size vstart) vend) :
    ∃ σ', allocLoop W fuel va size 1 vstart vend (n + 1) σ = some σ' := by
  obtain ⟨⟨σ₁, found⟩, hsearch⟩ : ∃ p, searchHole W fuel σ size 1 vstart vend = some p :=
    searchHole_returns hinv (by omega)
  obtain ⟨hq, hfound⟩ := searchHole_spec hb.request hinv
    (noWrap_one hinv hb.start_le hb.end_lt) hsearch
  obtain ⟨a, rfl, hle⟩ : ∃ a, found = some a ∧ a + size ≤ vend := by
    by_contra hnot
    refine ((searchHole_room hb hinv hsearch).2 fun a ha => ?_).1 hroom
    by_contra hlt
    exact hnot ⟨a, ha, not_lt.mp hlt⟩
  have hole := hfound a rfl
  set τ : Vm := { σ₁ with
    vaStart := Function.update σ₁.vaStart va a
    vaEnd := Function.update σ₁.vaEnd va (a + size)
    flags := Function.update σ₁.flags va 0 } with hτ
  have hinv₁ := hinv.quiet hq
  obtain ⟨t, ht, hrb, hin⟩ := hinv₁.tree
  have hne : ∀ b ∈ σ₁.list, b ≠ va := fun b hmem he => hfresh (by rw [← hq.list, ← he]; exact hmem)
  have hold : ∀ b ∈ σ₁.list, τ.vaStart b = σ₁.vaStart b ∧ τ.vaEnd b = σ₁.vaEnd b := fun b hmem =>
    ⟨Function.update_of_ne (hne b hmem) _ _, Function.update_of_ne (hne b hmem) _ _⟩
  have hsorted : Sorted τ τ.list := by
    refine ⟨List.Pairwise.imp_of_mem ?_ hinv₁.apart, fun b hmem => ?_⟩
    · intro b c hb' hc hbc
      unfold Apart
      rw [(hold b hb').2, (hold c hc).1]
      exact hbc
    · rw [(hold b hmem).1, (hold b hmem).2]
      exact (hinv₁.range b hmem).2.1
  have hS : τ.vaStart va = a := Function.update_self _ _ _
  have hE : τ.vaEnd va = a + size := Function.update_self _ _ _
  have hclear : ∀ b ∈ τ.list, Clear τ va b := by
    intro b hmem
    obtain ⟨pre, post, hlist, hpre, hpost⟩ := hole.hole hle
    unfold Clear Apart
    rw [(hold b hmem).1, (hold b hmem).2, hS, hE, hq.vaStart, hq.vaEnd]
    have hmem' : b ∈ σ.list := by rw [← hq.list]; exact hmem
    rw [hlist] at hmem'
    exact (List.mem_append.mp hmem').imp (hpre b) (hpost b)
  have hlen : τ.list.length = σ.list.length := congrArg List.length hq.list
  obtain ⟨σ₂, hins⟩ := @insertVmapArea_returns fuel _ τ _ ht hrb hin hsorted hadr
    (fun hmem => hne va hmem rfl) (by have := hb.size_pos; rw [hS, hE]; omega) hclear (by omega)
  refine ⟨{ σ₂ with freeVmapCache := va }, ?_⟩
  rw [allocLoop, hsearch]
  simp only [Option.bind_eq_bind, Option.bind_some]
  rw [addW_eq hole.fits, if_neg (by omega), hins]
  rfl

/-- A run of requests and frees in which no rounding wraps around; none does for alignment 1. -/
def Reach (W vstart vend : ℕ) : System → Prop :=
  Relation.ReflTransGen
    (Step W vstart vend fun σ align => align = 1 ∨ NoWrap W σ align vstart) ⟨init, []⟩

theorem reach_inv {x : System} (hs : vstart ≤ vend) (he : vend < 2 ^ W) (h : Reach W vstart vend x) :
    SysInv vstart vend x := by
  refine Lib.Run.invariant (I := SysInv vstart vend) (init_sysInv vstart vend) (fun x y hx hst => ?_) h
  refine step_sysInv (W := W) hx ?_
  cases hst with
  | alloc hpage hpos hsize hk hva hP hcall =>
    refine Step.alloc hpage hpos hsize hk hva (hP.elim (fun h1 => ?_) id) hcall
    rw [h1]
    exact noWrap_one hx.inv hs he
  | free ha hcall => exact Step.free ha hcall

/-- `alloc_vmap_area` returns: an area if there is a hole for it, and an error otherwise, with the same
areas as before. -/
def Answers (W : ℕ) (σ : Vm) (va size vstart vend : ℕ) : Prop :=
  ∃ fuel σ' r, allocVmapArea W fuel σ va size 1 vstart vend = some (σ', r) ∧
    (r ≠ none ↔ Room σ size vstart vend) ∧
    (r = none → σ'.list = σ.list ∧ σ'.vaStart = σ.vaStart ∧ σ'.vaEnd = σ.vaEnd)

/-- **`alloc_vmap_area` answers** exactly if there is a hole where its search starts; where there is
none, it never returns. -/
theorem allocVmapArea_answers_iff {x : System} (hb : Bounds W size vstart vend)
    (hx : Reach W vstart vend x) (hadr : Addr va) (hfresh : va ∉ x.st.list) :
    Answers W x.st va size vstart vend ↔
      Room x.st size (searchStart x.st size vstart) vend := by
  have hinv := (reach_inv hb.start_le hb.end_lt hx).inv
  constructor
  · rintro ⟨fuel, σ', r, hcall, -⟩
    unfold allocVmapArea at hcall
    rw [if_neg hadr.1] at hcall
    obtain ⟨σ₁, hloop, -⟩ := Option.bind_eq_some_iff.mp hcall
    exact room_of_allocLoop hb hinv hloop
  · intro hroom
    have hlow : vstart ≤ searchStart x.st size vstart := by
      unfold searchStart
      split_ifs with h1
      · exact le_rfl
      · have hcache := hinv.cache.resolve_left fun h0 => h1 (Or.inl h0)
        have := hinv.range _ hcache
        omega
    obtain ⟨σ', hloop⟩ := @allocLoop_returns _ _ _ _ (x.st.list.length + 2) _ _ hb
      (x.st.list.length + 1) hinv hadr hfresh le_rfl hroom
    refine ⟨x.st.list.length + 2, σ', some va, ?_, ⟨fun _ => ?_, fun _ => by simp⟩,
      fun h0 => (by cases h0)⟩
    · unfold allocVmapArea
      rw [if_neg hadr.1, hloop]
      rfl
    · obtain ⟨y, hy, hrest⟩ := hroom
      exact ⟨y, hlow.trans hy, hrest⟩

/-- The first page of the range. -/
theorem allocVmapArea_answers_page : Answers 32 init 4 0x1000 0x81800000 0xff800000 := by
  refine (allocVmapArea_answers_iff (x := ⟨init, []⟩) ⟨by decide, by decide, by decide, by decide⟩
    .refl ⟨by decide, by decide⟩ List.not_mem_nil).mpr ⟨0x81800000, by decide, by decide, ?_⟩
  exact fun a ha => absurd ha List.not_mem_nil

/-- The state after a request of the 32-bit system that returns. -/
def served (σ : Vm) (va size : ℕ) : Vm :=
  ((allocVmapArea 32 9 σ va size 1 0x81800000 0xff800000).getD (σ, none)).1

/-- Three pages, one after the other. -/
def three : Vm := served (served (served init 4 0x1000) 8 0x1000) 12 0x1000

/-- The second of them is given back. -/
def holed : Vm := (freeVmapArea 9 three 8).getD three

/-- A request for all that is left of the range passes the hole of one page and notes its size. -/
def full : Vm := served holed 8 0x7dffd000

theorem reach_served {σ : Vm} {live : List (ℕ × ℕ)} {va size : ℕ}
    (h : Reach 32 0x81800000 0xff800000 ⟨σ, live⟩)
    (hsize : 4096 ∣ size ∧ 0 < size ∧ size < 2 ^ 32) (hva : Addr va ∧ va ∉ live.map Prod.fst)
    (hr : (allocVmapArea 32 9 σ va size 1 0x81800000 0xff800000).map Prod.snd = some (some va)) :
    Reach 32 0x81800000 0xff800000 ⟨served σ va size, (va, 1) :: live⟩ := by
  obtain ⟨p, hp, hsnd⟩ := Option.map_eq_some_iff.mp hr
  have hcall : allocVmapArea 32 9 σ va size (2 ^ 0) 0x81800000 0xff800000 =
      some (served σ va size, some va) := by
    unfold served
    rw [Nat.pow_zero, hp, ← hsnd]
    rfl
  exact h.tail (Step.alloc (k := 0) hsize.1 hsize.2.1 hsize.2.2 (by decide) (Or.inr hva)
    (Or.inl (Nat.pow_zero 2)) hcall)

theorem reach_full : Reach 32 0x81800000 0xff800000 ⟨full, [(8, 1), (12, 1), (4, 1)]⟩ := by
  have h4 : Addr 4 := ⟨by decide, by decide⟩
  have h8 : Addr 8 := ⟨by decide, by decide⟩
  have h12 : Addr 12 := ⟨by decide, by decide⟩
  have r1 : Reach 32 0x81800000 0xff800000 ⟨served init 4 0x1000, [(4, 1)]⟩ :=
    reach_served .refl (by decide) ⟨h4, by decide⟩ (by decide +kernel)
  have r2 : Reach 32 0x81800000 0xff800000 ⟨served (served init 4 0x1000) 8 0x1000,
      [(8, 1), (4, 1)]⟩ := reach_served r1 (by decide) ⟨h8, by decide⟩ (by decide +kernel)
  have r3 : Reach 32 0x81800000 0xff800000 ⟨three, [(12, 1), (8, 1), (4, 1)]⟩ :=
    reach_served r2 (by decide) ⟨h12, by decide⟩ (by decide +kernel)
  have r4 : Reach 32 0x81800000 0xff800000 ⟨holed, [(12, 1), (4, 1)]⟩ := by
    have hfree : (freeVmapArea 9 three 8).isSome = true := by decide +kernel
    obtain ⟨σ', hσ'⟩ := Option.isSome_iff_exists.mp hfree
    have heq : holed = σ' := by
      unfold holed
      rw [hσ']
      rfl
    rw [heq]
    exact r3.tail (Step.free (a := (8, 1)) (by decide) hσ')
  exact reach_served r4 (by decide) ⟨h8, by decide⟩ (by decide +kernel)

/-- There is a hole of one page, but the search starts at the end of the range, and `alloc_vmap_area`
does not return. -/
theorem not_answers_full : Reach 32 0x81800000 0xff800000 ⟨full, [(8, 1), (12, 1), (4, 1)]⟩ ∧
    Room full 0x1000 0x81800000 0xff800000 ∧
    ¬ Answers 32 full 16 0x1000 0x81800000 0xff800000 := by
  have hb : Bounds 32 0x1000 0x81800000 0xff800000 :=
    ⟨by decide, by decide, by decide, by decide⟩
  have hinv : Inv 0x81800000 0xff800000 full := (reach_inv hb.start_le hb.end_lt reach_full).inv
  have hstart : searchStart full 0x1000 0x81800000 = 0xff800000 := by decide +kernel
  refine ⟨reach_full, ⟨0x81801000, by decide, by decide, by decide +kernel⟩, ?_⟩
  rintro ⟨fuel, σ', r, hcall, -⟩
  unfold allocVmapArea at hcall
  rw [if_neg (by decide)] at hcall
  obtain ⟨σ₁, hloop, -⟩ := Option.bind_eq_some_iff.mp hcall
  obtain ⟨x, hx, hx', -⟩ := room_of_allocLoop hb hinv hloop
  rw [hstart] at hx
  omega

end HardStack.Vmalloc.Complete
