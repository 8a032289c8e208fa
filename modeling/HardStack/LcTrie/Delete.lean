import HardStack.LcTrie.Insert

/-! # Deletion

The leaf is taken out of its slot, and the nodes above without a child are freed one by one. This ends
at a node with a child. There is none exactly if the trie has become empty; then the climb arrives at
the key vector of the trie, whose slot the child count does not cover, and reads its parent. -/

namespace HardStack.LcTrie.Delete

open HardStack.Lib.Patricia HardStack.LcTrie.Model HardStack.LcTrie.Layout HardStack.LcTrie.Lookup
open HardStack.LcTrie.Insert

variable {s s' : State} {t above key fuel n i : ℕ} {C T : PTree ℕ} {Z : Ctx ℕ} {v : Node}

/-! ### The word in front of the trie -/

theorem bind_ok {α β : Type} {x : Except Fault α} {f : α → Except Fault β} {b : β}
    (h : (x >>= f) = .ok b) : ∃ a, x = .ok a ∧ f a = .ok b := by
  cases x with
  | error e => cases h
  | ok a => exact ⟨a, rfl, h⟩

theorem outside_nodeFree (h : s.nodeFree n = .ok s') : s'.outside = s.outside := by
  obtain ⟨v, -, h⟩ := bind_ok h
  cases h
  rfl

theorem outside_putChildIndex {tn i n : ℕ} (h : putChildIndex s tn i n = .ok s') :
    s'.outside = s.outside := by
  obtain ⟨v, -, h⟩ := bind_ok h
  split_ifs at h <;> cases h <;> rfl

/-- What has been read stays read. -/
theorem outside_flushParent : ∀ {fuel : ℕ} {s s' : State} {n : ℕ},
    flushParent t fuel s n = .ok s' → s.outside = true → s'.outside = true
  | 0, _, _, _, h, _ => nomatch h
  | fuel + 1, s, s', n, h, hs => by
    have hor : (s.outside || decide (n = t)) = true := by
      rw [hs, Bool.true_or]
    unfold flushParent at h
    by_cases h0 : n = 0
    · rw [if_pos h0] at h
      cases h
      exact hs
    · rw [if_neg h0] at h
      obtain ⟨v, -, h⟩ := bind_ok h
      by_cases hany : ((List.range (childLength v)).any fun index => v.tnode index ≠ 0) = true
      · rw [if_pos hany] at h
        cases h
        exact hs
      · rw [if_neg hany] at h
        dsimp only at h
        by_cases htn : v.parent = 0
        · rw [if_pos htn] at h
          cases h
          exact hor
        · rw [if_neg htn] at h
          obtain ⟨w, -, h⟩ := bind_ok h
          obtain ⟨s₁, hf, h⟩ := bind_ok h
          obtain ⟨s₂, hp, h⟩ := bind_ok h
          refine outside_flushParent h ?_
          rw [outside_putChildIndex hp, outside_nodeFree hf]
          exact hor

/-! ### The climb -/

/-- At the top the child count is no count: the parent of the trie is read. -/
theorem flushParent_root (ht : t ≠ 0) (hZ : RepCtx t above s [] i) :
    (∀ s', flushParent t (fuel + 1) s t = .ok s' → s'.outside = true) ∧
      (above = 0 → flushParent t (fuel + 1) s t = .ok { s with outside := true }) := by
  obtain ⟨v, hv, hpar, -, -, hbits, -⟩ := hZ
  have hany : ¬ ((List.range (childLength v)).any fun index => v.tnode index ≠ 0) = true := by
    unfold childLength
    rw [hbits]
    exact Bool.false_ne_true
  have hread : ∀ b, flushParent t (fuel + 1) ⟨s.mem, b⟩ t = (if v.parent = 0 then .ok ⟨s.mem, true⟩
      else do
        let w ← (State.mk s.mem true).load v.parent
        let s ← (State.mk s.mem true).nodeFree t
        let s ← putChildIndex s v.parent (getCindex v.key w) 0
        flushParent t fuel s v.parent) := by
    intro b
    have hv' : (State.mk s.mem b).mem t = some v := hv
    rw [flushParent, if_neg ht, load_eq hv', ok_bind, if_neg hany, decide_eq_true rfl, Bool.or_true]
  constructor
  · intro s' h
    refine @outside_flushParent t (fuel + 1) ⟨s.mem, true⟩ s' t ?_ rfl
    rw [hread true, ← hread s.outside]
    exact h
  · intro h0
    exact (hread s.outside).trans (if_pos (hpar.trans h0))

/-- **One step up**: an inner node without children is freed. -/
theorem flushParent_step {f : Frame ℕ} (ht : t ≠ 0) (hZ : RepCtx t above s (f :: Z) 0)
    (hwfZ : Ctx.Wf 32 (f :: Z)) (hsib : f.sib = .nil)
    (hnd : (t ::ₘ Ctx.addresses (f :: Z)).Nodup) : ∃ s₂, s₂.outside = s.outside ∧
      RepCtx t above s₂ Z 0 ∧ flushParent t (fuel + 1) s f.p = flushParent t fuel s₂ (up t Z) := by
  obtain ⟨⟨hp0, v, hv, hpar, hk, hpos, hbits, hc, hc'⟩, -, hZ⟩ := hZ
  obtain ⟨hlt, hdvd, hfk, -, hwfZ⟩ := hwfZ
  rw [Ctx.addresses, hsib, PTree.addresses_nil, zero_add, Multiset.cons_swap] at hnd
  obtain ⟨hp, hndZ⟩ := Multiset.nodup_cons.mp hnd
  have hpt : f.p ≠ t := fun heq => hp (heq ▸ Multiset.mem_cons_self t _)
  have hup : up t Z ≠ f.p := fun heq => hp (heq ▸ up_mem t Z)
  have hup0 : up t Z ≠ 0 := by
    cases Z with
    | nil => exact ht
    | cons f' Z => exact hZ.1.1
  have hzero : ∀ b : Bool, v.tnode b.toNat = 0 := by
    intro b
    rw [hsib] at hc'
    by_cases hb : b = f.dir
    · rw [hb, hc]
    · rw [Bool.eq_not_of_ne hb, hc']
      rfl
  have hany : ¬ ((List.range (childLength v)).any fun index => v.tnode index ≠ 0) = true := by
    have h0 := hzero false
    have h1 := hzero true
    unfold childLength
    rw [hbits, show List.range (2 ^ 1 / 2 * 2) = [false.toNat, true.toNat] from rfl]
    rw [List.any_eq_true]
    rintro ⟨j, hj, hne⟩
    rcases List.mem_cons.mp hj with rfl | hj
    · rw [h0] at hne
      cases hne
    · rw [List.mem_singleton.mp hj, h1] at hne
      cases hne
  have hout : (s.outside || decide (f.p = t)) = s.outside := by
    rw [decide_eq_false hpt, Bool.or_false]
  obtain ⟨w, hw, -⟩ := hZ.up_node
  -- the memory without the node
  obtain ⟨s₁, hs₁⟩ : ∃ s₁ : State, s₁ = ⟨Function.update s.mem f.p none, s.outside⟩ := ⟨_, rfl⟩
  have hmem : ∀ q, q ≠ f.p → s₁.mem q = s.mem q := fun q hq => by
    rw [hs₁]
    exact Function.update_of_ne hq _ _
  have hfree : s.nodeFree f.p = .ok s₁ := by
    unfold State.nodeFree
    rw [load_eq hv, ok_bind, hs₁]
  have hZ₁ : RepCtx t above s₁ Z f.p := hZ.congr fun q hq => hmem q fun heq => hp (heq ▸ hq)
  have hw₁ : s₁.mem (up t Z) = some w := by
    rw [hmem _ hup, hw]
  have hput := putChildIndex_slot hZ₁ hwfZ hw₁ 0
  refine ⟨_, ?_, hZ₁.write hndZ hw₁ mem_store_self fun q _ hq => mem_store_of_ne hq, ?_⟩
  · rw [outside_store, hs₁]
  · rw [flushParent, if_neg hp0, load_eq hv, ok_bind, if_neg hany, hout]
    dsimp only
    rw [hpar, if_neg hup0, load_eq hw, ok_bind, hfree, ok_bind,
      (slot_spec hZ hwfZ hw (hk ▸ hfk)).2, hput, ok_bind]

/-- **`b32t_flush_parent`** prunes the nodes without keys, and passes the top if none has any. -/
theorem flushParent_spec (ht : t ≠ 0) : ∀ {Z : Ctx ℕ} {fuel : ℕ} {s : State},
    RepCtx t above s Z 0 → Z.Wf 32 → Z.Full → (t ::ₘ Z.addresses).Nodup → Z.length < fuel →
    (Z.prune ≠ .nil → ∃ s', flushParent t fuel s (up t Z) = .ok s' ∧ s'.outside = s.outside ∧
      Stored t above s' Z.prune) ∧
    (Z.prune = .nil → (∀ s', flushParent t fuel s (up t Z) = .ok s' → s'.outside = true) ∧
      (above = 0 → ∃ s', flushParent t fuel s (up t Z) = .ok s' ∧ Stored t above s' .nil))
  | _, 0, _, _, _, _, _, hfuel => absurd hfuel (Nat.not_lt_zero _)
  | [], fuel + 1, s, hZ, _, _, hnd, _ => by
    obtain ⟨h1, h2⟩ := @flushParent_root s t above fuel 0 ht hZ
    refine ⟨fun h => absurd rfl h, fun _ => ⟨h1, fun h0 => ⟨_, h2 h0, ht, ?_, trivial, hnd, trivial, trivial⟩⟩⟩
    obtain ⟨v, hv, hrest⟩ := hZ
    exact ⟨v, hv, hrest⟩
  | f :: Z, fuel + 1, s, hZ, hwfZ, hfull, hnd, hfuel => by
    by_cases hsib : f.sib = .nil
    · have hnd' := hnd
      rw [Ctx.addresses, hsib, PTree.addresses_nil, zero_add, Multiset.cons_swap] at hnd'
      obtain ⟨s₂, hout, hZ₂, heq⟩ := @flushParent_step s t above fuel Z f ht hZ hwfZ hsib hnd
      rw [Ctx.prune_nil f Z hsib, show up t (f :: Z) = f.p from rfl, heq, ← hout]
      exact flushParent_spec ht hZ₂ hwfZ.2.2.2.2 hfull.2 (Multiset.nodup_cons.mp hnd').2
        (Nat.lt_of_succ_lt_succ hfuel)
    · have hne : f.sib ≠ .nil := hsib
      obtain ⟨⟨hp0, v, hv, hpar, hk, hpos, hbits, hc, hc'⟩, hrep, hZ'⟩ := id hZ
      have hany : ((List.range (childLength v)).any fun index => v.tnode index ≠ 0) = true := by
        rw [List.any_eq_true]
        refine ⟨(!f.dir).toNat, ?_, ?_⟩
        · unfold childLength
          rw [hbits, List.mem_range]
          exact Bool.toNat_lt _
        · rw [hc', decide_eq_true_eq]
          exact (hrep.top hne).1
      have hstop : flushParent t (fuel + 1) s (up t (f :: Z)) = .ok s := by
        rw [show up t (f :: Z) = f.p from rfl, flushParent, if_neg hp0, load_eq hv, ok_bind,
          if_pos hany]
      rw [Ctx.prune_of_ne f Z hne]
      have hfill : Ctx.fill (f :: Z) .nil ≠ .nil := by
        intro h0
        have hsub : f.sib.keys ⊆ f.sib.keys ∪ Ctx.keys Z := Finset.subset_union_left
        have hkeys := (hfull.1.keys_nonempty hne).mono hsub
        rw [show f.sib.keys ∪ Ctx.keys Z = (Ctx.fill (f :: Z) .nil).keys by
          rw [Ctx.keys_fill, PTree.keys_nil, Finset.union_empty, Ctx.keys], h0] at hkeys
        exact Finset.not_nonempty_empty hkeys
      refine ⟨fun _ => ⟨s, hstop, rfl, ?_⟩, fun h0 => absurd h0 hfill⟩
      have hnil : RepCtx t above s (f :: Z) (ptr .nil) ∧ Rep s (up t (f :: Z)) .nil := ⟨hZ, trivial⟩
      obtain ⟨hroot, htree⟩ := rep_fill.mpr hnil
      refine ⟨ht, hroot, htree, ?_, Ctx.wf_fill.mpr ⟨hwfZ, trivial⟩, ?_⟩
      · rw [Ctx.addresses_fill, PTree.addresses_nil, add_zero]
        exact hnd
      · rw [← Ctx.prune_of_ne f Z hne]
        exact hfull.prune

/-! ### The deletion -/

/-- **`b32t_leaf_delete`**: an absent key, a key that is not the only one, and the only key. -/
theorem leafDelete_spec (h : Stored t above s T) (hkey : key < 2 ^ 32) (hfuel : 32 < fuel) :
    (key ∉ T.keys → leafDelete fuel t s key = .ok s) ∧
    (key ∈ T.keys → T.keys ≠ {key} → ∃ s' T', leafDelete fuel t s key = .ok s' ∧
      s'.outside = s.outside ∧ Stored t above s' T' ∧ T'.keys = T.keys.erase key) ∧
    (T.keys = {key} → (∀ s', leafDelete fuel t s key = .ok s' → s'.outside = true) ∧
      (above = 0 → ∃ s', leafDelete fuel t s key = .ok s' ∧ Stored t above s' .nil)) := by
  obtain ⟨-, Z, C, ⟨rfl, hpre, hends⟩, hfind⟩ := find_spec h hkey hfuel true
  obtain ⟨hwfZ, hwf⟩ := Ctx.wf_fill.mp h.wf
  obtain ⟨hZ, hC⟩ := rep_fill.mp ⟨h.root, h.tree⟩
  have hmemC := hwfZ.mem_fill hpre (t := C)
  have habsent : key ∉ C.keys → leafDelete fuel t s key = .ok s := by
    intro hnot
    have hhit : hit key C = 0 := by
      by_contra hne
      exact hnot ((hit_ne_zero hC hwf hends).mp hne)
    unfold leafDelete
    rw [hfind, leafAt_zero hhit, ok_bind]
    exact if_pos rfl
  refine ⟨fun hnot => habsent fun hmem => hnot (hmemC.mpr hmem), ?_⟩
  by_cases hmem : key ∈ C.keys
  · obtain ⟨p, rfl⟩ : ∃ p, C = .leaf p key := by
      obtain rfl | hmiss | hleaf := hends
      · exact absurd hmem (Finset.notMem_empty key)
      · exact absurd hmem (hmiss.notMem hwf)
      · exact hleaf
    obtain ⟨hp0, w, hw, hwpar, -⟩ := id hC
    obtain ⟨v, hv, -⟩ := hZ.up_node
    have hnd := h.nodup
    rw [Ctx.addresses_fill, PTree.addresses_leaf, ← Multiset.cons_add, add_comm,
      Multiset.singleton_add, Multiset.nodup_cons] at hnd
    obtain ⟨hp, hndZ⟩ := hnd
    have hup : up t Z ≠ p := fun heq => hp (heq ▸ up_mem t Z)
    -- the memory without the leaf
    obtain ⟨s₁, hs₁⟩ : ∃ s₁, s₁ = s.store (up t Z)
      { v with tnode := Function.update v.tnode (slot Z) 0 } := ⟨_, rfl⟩
    obtain ⟨s₂, hs₂⟩ : ∃ s₂ : State, s₂ = ⟨Function.update s₁.mem p none, s₁.outside⟩ := ⟨_, rfl⟩
    have hput : putChildIndex s (up t Z) (slot Z) 0 = .ok s₁ := by
      rw [putChildIndex_slot hZ hwfZ hv, hs₁]
    have hw₁ : s₁.mem p = some w := by
      rw [hs₁, mem_store_of_ne hup.symm, hw]
    have hfree : s₁.nodeFree p = .ok s₂ := by
      unfold State.nodeFree
      rw [load_eq hw₁, ok_bind, hs₂]
    have hZ₁ : RepCtx t above s₁ Z 0 := by
      refine hZ.write hndZ hv (by rw [hs₁, mem_store_self]) fun q _ hq => ?_
      rw [hs₁, mem_store_of_ne hq]
    have hZ₂ : RepCtx t above s₂ Z 0 := hZ₁.congr fun q hq => by
      rw [hs₂]
      exact Function.update_of_ne (fun heq : q = p => hp (heq ▸ hq)) _ _
    have hrun : leafDelete fuel t s key = flushParent t fuel s₂ (up t Z) := by
      have hhit : hit key (.leaf p key) = p := if_pos rfl
      unfold leafDelete
      rw [hfind, leafAt, hhit, if_pos ⟨rfl, hp0⟩, hput, ok_bind, ok_bind]
      dsimp only
      rw [if_neg hp0, load_eq hw₁, ok_bind, hfree, ok_bind, hwpar]
    have hout : s₂.outside = s.outside := by
      rw [hs₂, hs₁]
      rfl
    have hlen : Z.length < fuel := by
      have := hwfZ.length_add_depth_le
      omega
    have hfull : Z.Full := Ctx.Full.of_fill h.full
    obtain ⟨hsome, hnone⟩ := flushParent_spec h.pos hZ₂ hwfZ hfull hndZ hlen
    have hnotZ : key ∉ Z.keys := fun hmem => hwfZ.div_ne key hmem hpre
    have hkeys : (Z.fill (.leaf p key)).keys = insert key Z.keys := by
      rw [Ctx.keys_fill, PTree.keys_leaf, Finset.union_comm, Finset.insert_eq]
    have hempty : Z.prune = .nil ↔ Z.keys = ∅ := by
      rw [← Ctx.keys_prune]
      constructor
      · intro h0
        rw [h0, PTree.keys_nil]
      · intro h0
        by_contra hne
        exact (hfull.prune.keys_nonempty hne).ne_empty h0
    have honly : insert key Z.keys = {key} ↔ Z.keys = ∅ := by
      constructor
      · intro heq
        have herase := congrArg (Finset.erase · key) heq
        simpa [Finset.erase_insert hnotZ] using herase
      · intro heq
        rw [heq, insert_empty_eq]
    rw [hkeys, hrun, ← hout]
    refine ⟨fun _ hne => ?_, fun heq => hnone (hempty.mpr (honly.mp heq))⟩
    obtain ⟨s', hs', hout', hst⟩ := hsome fun h0 => hne (honly.mpr (hempty.mp h0))
    refine ⟨s', Z.prune, hs', hout', hst, ?_⟩
    rw [Ctx.keys_prune, Finset.erase_insert hnotZ]
  · refine ⟨fun h' => absurd (hmemC.mp h') hmem, fun heq => absurd (hmemC.mp ?_) hmem⟩
    rw [heq]
    exact Finset.mem_singleton_self key

end HardStack.LcTrie.Delete
