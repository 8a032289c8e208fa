import HardStack.Radix.Insert

/-! # Deletion

The slot is cleared, and then `delete_node` takes out the nodes that became empty, from the leaf up,
and `radix_tree_shrink` takes off the top while the tree fits into its first slot. Only the first
step changes the content. -/

namespace HardStack.Radix.Delete

open HardStack.Lib.Trie HardStack.Radix.Model HardStack.Radix.Layout HardStack.Radix.Insert

variable {W : ℕ} {s : Tree} {pre : ℕ → ℕ}

/-! ### `radix_tree_shrink` -/

/-- The tree without its top node `n`. -/
def popTop (s : Tree) (n : ℕ) : Tree :=
  let child := (s.node n).slots 0
  let s := if isInternalNode child then s.setParent (entryToNode child) 0 else s
  let s := { s with rnode := child }
  let s := s.setNode n fun x => { x with count := 0 }
  let s := if ¬ isInternalNode child then s.setSlot (.slots n 0) RADIX_TREE_RETRY else s
  s.free n

section

variable {n : ℕ}

theorem popTop_live : (popTop s n).live = s.live.erase n := by
  unfold popTop
  dsimp only
  split_ifs <;> rfl

theorem popTop_mask : (popTop s n).gfpMask = s.gfpMask := by
  unfold popTop
  dsimp only
  split_ifs <;> rfl

theorem popTop_rnode : (popTop s n).rnode = (s.node n).slots 0 := by
  unfold popTop
  dsimp only
  split_ifs <;> rfl

theorem popTop_node {x : ℕ} (hx : x ≠ n) : (popTop s n).node x =
    { s.node x with parent := if isInternalNode ((s.node n).slots 0) ∧
        x = entryToNode ((s.node n).slots 0) then 0 else (s.node x).parent } := by
  unfold popTop
  simp only [Tree.setSlot, Tree.setNode, Tree.setParent, Tree.free]
  split_ifs with h1 h2 h3 <;> simp_all

/-- **Taking off the top node** keeps the invariant and the content. -/
theorem popTop_inv (hinv : Inv W s pre) (hr : isInternalNode s.rnode) (hn : n = entryToNode s.rnode)
    (h1 : (s.node n).count = 1) (hc : (s.node n).slots 0 ≠ 0) :
    Inv W (popTop s n) pre ∧ ∀ i a, Has (popTop s n) pre i a ↔ Has s pre i a := by
  have hnl : n ∈ s.live := hn ▸ (hinv.root hr).1
  have hroot : (view s pre).root = .node n := decode_eq_node.mpr ⟨hr, hn⟩
  have hsize : ((view s pre).cell n).size 6 = 1 := by rw [← hinv.wf.count n hnl]; exact h1
  have hused : (((view s pre).cell n).slot 0).used := by
    show (decode ((s.node n).slots 0)).used
    cases hd : decode ((s.node n).slots 0) with
    | empty => exact absurd (decode_eq_empty.mp hd) hc
    | item a => rfl
    | node m => rfl
  have hslot : ∀ x, ((view s pre).cell n).slot 0 = .node x ↔
      isInternalNode ((s.node n).slots 0) ∧ x = entryToNode ((s.node n).slots 0) :=
    fun x => decode_eq_node
  have hcell : ∀ x, x ≠ n → (view (popTop s n) pre).cell x = viewCell { s.node x with
      parent := if isInternalNode ((s.node n).slots 0) ∧ x = entryToNode ((s.node n).slots 0)
        then 0 else (s.node x).parent } (pre x) := by
    intro x hx
    show viewCell _ _ = _
    rw [popTop_node hx]
  have hoff : OffTop (view s pre) (view (popTop s n) pre) n := by
    refine ⟨?_, popTop_live, fun x hx hxn => ?_, fun x hx hxn h0 => ?_, fun x hx hxn h0 => ?_⟩
    · show decode (popTop s n).rnode = _
      rw [popTop_rnode]
      rfl
    · rw [hcell x hxn]
      rfl
    · rw [hcell x hxn, if_pos ((hslot x).mp h0)]
      rfl
    · rw [hcell x hxn, if_neg fun h => h0 ((hslot x).mpr h)]
      rfl
  refine ⟨Inv.of_wf hinv (hoff.wf hinv.wf hroot hsize hused) popTop_mask ?_,
    fun i a => hoff.holds hinv.wf hroot hsize hused⟩
  intro x hx
  rw [popTop_live, Finset.mem_erase] at hx
  rw [popTop_node hx.1]
  exact ⟨hinv.addr x hx.2, hinv.shift x hx.2, hinv.tags x hx.2, hinv.start x hx.2⟩

end

/-- The height of the tree, for the loops that climb down it. -/
def rootShift (s : Tree) : ℕ :=
  if isInternalNode s.rnode then (s.node (entryToNode s.rnode)).shift + 6 else 0

/-- One round of the loop. -/
theorem radixTreeShrink_succ (hidr : ¬ s.isIdr) {k : ℕ} {b : Bool} (hr : isInternalNode s.rnode)
    (h1 : (s.node (entryToNode s.rnode)).count = 1)
    (hc : (s.node (entryToNode s.rnode)).slots 0 ≠ 0)
    (hs : isInternalNode ((s.node (entryToNode s.rnode)).slots 0) ∨
      (s.node (entryToNode s.rnode)).shift = 0) :
    radixTreeShrink W (k + 1) s b = radixTreeShrink W k (popTop s (entryToNode s.rnode)) true := by
  rw [radixTreeShrink, if_neg (not_not.mpr hr)]
  dsimp only
  rw [if_neg (not_not.mpr h1), if_neg hc, if_neg (by tauto)]
  unfold popTop
  dsimp only
  by_cases hint : isInternalNode ((s.node (entryToNode s.rnode)).slots 0)
  · rw [if_pos hint, if_neg (not_not.mpr hint), if_neg (fun h => hidr h.1),
      if_neg (not_not.mpr hint)]
  · rw [if_neg hint, if_pos hint, if_neg (fun h => hidr h.1), if_pos hint]

theorem radixTreeShrink_spec : ∀ {k : ℕ} {s : Tree} {b : Bool}, Inv W s pre → rootShift s < k →
    ∃ s' b', radixTreeShrink W k s b = some (s', b') ∧ Inv W s' pre ∧
      ∀ i a, Has s' pre i a ↔ Has s pre i a
  | 0, _, _, _, hk => absurd hk (by omega)
  | k + 1, s, b, hinv, hk => by
    by_cases hgo : isInternalNode s.rnode ∧ (s.node (entryToNode s.rnode)).count = 1 ∧
        (s.node (entryToNode s.rnode)).slots 0 ≠ 0 ∧
        (isInternalNode ((s.node (entryToNode s.rnode)).slots 0) ∨
          (s.node (entryToNode s.rnode)).shift = 0)
    · obtain ⟨hr, h1, hc, hs⟩ := hgo
      rw [radixTreeShrink_succ hinv.notIdr hr h1 hc hs]
      obtain ⟨hinv', hhas⟩ := popTop_inv hinv hr rfl h1 hc
      have hlow : rootShift (popTop s (entryToNode s.rnode)) < k := by
        unfold rootShift at hk ⊢
        rw [if_pos hr] at hk
        split_ifs with hr'
        · -- the new top is the child in the first slot
          rw [popTop_rnode] at hr' ⊢
          obtain ⟨hl, hsh⟩ := hinv.child (hinv.root hr).1 (by omega) hr'
          have hne : entryToNode ((s.node (entryToNode s.rnode)).slots 0) ≠ entryToNode s.rnode := by
            intro he
            rw [he] at hsh
            omega
          rw [popTop_node hne]
          show (s.node (entryToNode ((s.node (entryToNode s.rnode)).slots 0))).shift + 6 < k
          omega
        · omega
      obtain ⟨s', b', heq, h2, h3⟩ := radixTreeShrink_spec (k := k) (b := true) hinv' hlow
      exact ⟨s', b', heq, h2, fun i a => (h3 i a).trans (hhas i a)⟩
    · refine ⟨s, b, ?_, hinv, fun _ _ => Iff.rfl⟩
      rw [radixTreeShrink]
      dsimp only
      split_ifs <;> first | rfl | exact absurd (by tauto) hgo

/-! ### `delete_node` -/

/-- The tree without the empty node `n` below `p`. -/
def popChild (s : Tree) (n p : ℕ) : Tree :=
  ((s.setSlot (.slots p (s.node n).offset) 0).setCount p (-1)).free n

theorem popChild_node {n p x : ℕ} : (popChild s n p).node x = if x = p then { s.node p with
    slots := Function.update (s.node p).slots (s.node n).offset 0
    count := addChar (s.node p).count (-1) } else s.node x := by
  by_cases hx : x = p
  · subst hx
    simp [popChild, Tree.setSlot, Tree.setCount, Tree.setNode, Tree.free]
  · simp [popChild, Tree.setSlot, Tree.setCount, Tree.setNode, Tree.free, hx]

/-- The parent field as a link. -/
theorem parent_eq {n : ℕ} (h0 : (s.node n).parent ≠ 0) :
    ((view s pre).cell n).parent = some (s.node n).parent := if_neg h0

/-- **Taking out an empty node** keeps the invariant and the content. -/
theorem popChild_inv (hinv : Inv W s pre) {n : ℕ} (hn : n ∈ s.live) (hc : (s.node n).count = 0)
    (h0 : (s.node n).parent ≠ 0) : (s.node n).parent ∈ s.live ∧
      (s.node (s.node n).parent).shift = (s.node n).shift + 6 ∧
      Inv W (popChild s n (s.node n).parent) pre ∧
      ∀ i a, Has (popChild s n (s.node n).parent) pre i a ↔ Has s pre i a := by
  obtain ⟨hpl, ho, hslot, hs, -⟩ := hinv.wf.up n hn _ (parent_eq h0)
  have hz : ((view s pre).cell n).size 6 = 0 := by rw [← hinv.wf.count n hn]; exact hc
  -- the parent's count is not zero: it counts this node
  have hcount : 0 < (s.node (s.node n).parent).count := by
    have := Cell.size_clear (b := 6) 0 ho (by rw [hslot]; rfl)
    rw [← hinv.wf.count _ hpl] at this
    show 0 < ((view s pre).cell (s.node n).parent).count
    omega
  have hle := hinv.count_le hpl
  generalize hp : (s.node n).parent = p at *
  have hview : view (popChild s n p) pre =
      ((view s pre).setSlot p ((view s pre).cell n).offset .empty
        (((view s pre).cell p).count - 1)).free n := by
    ext x : 2
    · rfl
    · rfl
    · rw [Store.cell_free, Store.cell_setSlot]
      show viewCell ((popChild s n p).node x) (pre x) = _
      rw [popChild_node]
      by_cases hx : x = p
      · subst hx
        rw [if_pos rfl, if_pos rfl, addChar_neg_one hcount (by omega)]
        ext y
        all_goals try rfl
        simp only [viewCell, Cell.put, view, Function.update_apply]
        split_ifs <;> rfl
      · rw [if_neg hx, if_neg hx]
        rfl
  have hpar : ((view s pre).cell n).parent = some p := by rw [parent_eq (by rw [hp]; exact h0), hp]
  refine ⟨hpl, hs, Inv.of_wf hinv ?_ rfl ?_, fun i a => ?_⟩
  · rw [hview]
    exact hinv.wf.removeChild hn hz hpar
  · intro x hx
    have hx' : x ∈ s.live := Finset.mem_of_mem_erase hx
    rw [popChild_node]
    refine ⟨hinv.addr x hx', ?_⟩
    split_ifs with hxp
    · subst hxp
      exact ⟨hinv.shift x hx', hinv.tags x hx', hinv.start x hx'⟩
    · exact ⟨hinv.shift x hx', hinv.tags x hx', hinv.start x hx'⟩
  · unfold Has
    rw [hview]
    exact hinv.wf.holds_removeChild hn hz hpar

/-- The tree without its last node. -/
def popRoot (s : Tree) (n : ℕ) : Tree := { s.rootTagClearAll with rnode := 0 }.free n

theorem popRoot_inv (hinv : Inv W s pre) {n : ℕ} (hn : n ∈ s.live) (hc : (s.node n).count = 0)
    (h0 : (s.node n).parent = 0) :
    Inv W (popRoot s n) pre ∧ ∀ i a, Has (popRoot s n) pre i a ↔ Has s pre i a := by
  have hz : ((view s pre).cell n).size 6 = 0 := by rw [← hinv.wf.count n hn]; exact hc
  have hroot : (view s pre).root = .node n := (hinv.wf.top n hn (if_pos h0)).1
  have hview : view (popRoot s n) pre = ((view s pre).setRoot .empty).free n := rfl
  have hmask : (popRoot s n).gfpMask = s.gfpMask := Nat.mod_eq_of_lt hinv.mask
  obtain ⟨hwf, hhas⟩ := hinv.wf.removeRoot (by omega) hroot hz
  refine ⟨Inv.of_wf hinv (hview ▸ hwf) hmask fun x hx => ?_, fun i a => ?_⟩
  · have hx' : x ∈ s.live := Finset.mem_of_mem_erase hx
    exact ⟨hinv.addr x hx', hinv.shift x hx', hinv.tags x hx', hinv.start x hx'⟩
  · unfold Has
    rw [hview]
    exact hhas i a

theorem deleteNode_spec : ∀ {k n : ℕ} {s : Tree} {d : Bool}, Inv W s pre → n ∈ s.live →
    2 * W + 6 ≤ k + (s.node n).shift → ∃ s' d', deleteNode W k s n d = some (s', d') ∧
      Inv W s' pre ∧ ∀ i a, Has s' pre i a ↔ Has s pre i a
  | 0, n, s, _, hinv, hn, hk => absurd (hinv.shift n hn) (by omega)
  | k + 1, n, s, d, hinv, hn, hk => by
    have hsW := hinv.shift n hn
    rw [deleteNode]
    by_cases hc : (s.node n).count = 0
    · rw [if_neg (not_not.mpr hc)]
      dsimp only
      by_cases h0 : (s.node n).parent = 0
      · obtain ⟨hinv', hhas⟩ := popRoot_inv hinv hn hc h0
        rw [if_neg (not_not.mpr h0), if_neg (not_not.mpr h0), if_pos hinv.notIdr]
        exact ⟨_, _, rfl, hinv', hhas⟩
      · obtain ⟨hpl, hs, hinv', hhas⟩ := popChild_inv hinv hn hc h0
        rw [if_pos h0, if_pos h0]
        have hne : (s.node n).parent ≠ n := by
          intro he
          rw [he] at hs
          omega
        have hshift : ((popChild s n (s.node n).parent).node (s.node n).parent).shift =
            (s.node n).shift + 6 := by
          rw [popChild_node, if_pos rfl]
          exact hs
        obtain ⟨s', d', heq, h1, h2⟩ := deleteNode_spec (k := k) (d := true) hinv'
          (Finset.mem_erase.mpr ⟨hne, hpl⟩) (by rw [hshift]; omega)
        exact ⟨s', d', heq, h1, fun i a => (h2 i a).trans (hhas i a)⟩
    · rw [if_pos hc]
      by_cases hr : nodeToEntry n = s.rnode
      · rw [if_pos hr]
        have hlow : rootShift s < k := by
          unfold rootShift
          rw [← hr, entryToNode_nodeToEntry (hinv.addr n hn).2]
          split_ifs <;> omega
        obtain ⟨s', b', heq, h1, h2⟩ := radixTreeShrink_spec (b := false) hinv hlow
        rw [heq]
        exact ⟨s', _, rfl, h1, h2⟩
      · rw [if_neg hr]
        exact ⟨s, d, rfl, hinv, fun _ _ => Iff.rfl⟩

/-! ### `radix_tree_delete` -/

theorem nodeTagClear_eq (hinv : Inv W s pre) {n : ℕ} (hn : n = 0 ∨ n ∈ s.live) (tag k offset : ℕ) :
    nodeTagClear W tag (k + 1) s n offset = some s := by
  rw [nodeTagClear]
  by_cases h0 : n = 0
  · rw [if_neg (not_not.mpr h0), rootTagGet_eq hinv.mask]
    rfl
  · rw [if_pos h0, tagGet_eq hinv (hn.resolve_left h0)]
    rfl

theorem deleteTags_eq (hinv : Inv W s pre) {n : ℕ} (hn : n = 0 ∨ n ∈ s.live) (k offset : ℕ) :
    deleteTags W (k + 1) s n offset = some s := by
  unfold deleteTags
  rw [if_neg hinv.notIdr]
  simp [RADIX_TREE_MAX_TAGS, List.range_succ, nodeTagClear_eq hinv hn]

/-- The tree with a used slot of a node cleared. -/
theorem replaceSlot_inv (hinv : Inv W s pre) {index n o : ℕ} (h : SlotOf s pre index n o)
    (hint : ¬ isInternalNode ((s.node n).slots o)) (he : (s.node n).slots o ≠ 0) (d : ℤ) :
    Inv W (replaceSlot s (.slots n o) 0 n (-1) d) pre ∧
      Put s pre index 0 (replaceSlot s (.slots n o) 0 n (-1) d) pre ∧
      (replaceSlot s (.slots n o) 0 n (-1) d).live = s.live ∧
      ((replaceSlot s (.slots n o) 0 n (-1) d).node n).shift = 0 := by
  have hn0 := (hinv.addr n h.live).1
  have hcell : ((view s pre).cell n).slot o = .item ((s.node n).slots o) := decode_item he hint
  have hleaf : (s.node n).shift = 0 := hinv.wf.leaf n h.live o h.offset_lt _ hcell
  have hsize := Cell.size_clear (b := 6) ((s.node n).count - 1) h.offset_lt (by rw [hcell]; rfl)
  have hcount : (s.node n).count = ((view s pre).cell n).size 6 := hinv.wf.count n h.live
  have hle := hinv.count_le h.live
  have hz : ¬ isInternalNode 0 := by intro h; cases h
  have heq : replaceSlot s (.slots n o) 0 n (-1) d =
      ((s.setCount n (-1)).setExceptional n d).setSlot (.slots n o) 0 := by
    unfold replaceSlot
    rw [if_neg hz, if_pos ⟨hn0, Or.inl (by decide)⟩]
  rw [heq]
  have hnode : (((s.setCount n (-1)).setExceptional n d).setSlot (.slots n o) 0).node n =
      { s.node n with
        slots := Function.update (s.node n).slots o 0
        count := (s.node n).count - 1
        exceptional := addChar (s.node n).exceptional d } := by
    simp [Tree.setSlot, Tree.setCount, Tree.setExceptional, Tree.setNode,
      addChar_neg_one (show 0 < (s.node n).count by omega) (by omega)]
  obtain ⟨h1, h2⟩ := setLeaf_inv (((s.setCount n (-1)).setExceptional n d).setSlot (.slots n o) 0)
    hinv h hleaf hz rfl rfl rfl
    (fun x hx => by simp [Tree.setSlot, Tree.setCount, Tree.setExceptional, Tree.setNode, hx])
    ⟨_, hnode⟩ (by rw [decode_zero]; omega)
  exact ⟨h1, h2, rfl, by rw [hnode]; exact hleaf⟩

/-- **`radix_tree_delete`** returns the item at the index, or `NULL`, and leaves the index empty. -/
theorem radixTreeDelete_spec (hinv : Inv W s pre) {index fuel : ℕ} (hi : index < 2 ^ W)
    (hf : 2 * W + 6 ≤ fuel) : ∃ s' e, radixTreeDelete W fuel s index = some (s', e) ∧ Inv W s' pre ∧
      (∀ a, Has s pre index a ↔ e = a ∧ a ≠ 0) ∧ Put s pre index 0 s' pre := by
  obtain ⟨k, rfl⟩ : ∃ k, fuel = k + 1 := ⟨fuel - 1, by omega⟩
  obtain ⟨r, hr, hfound⟩ := radixTreeLookupSlot_spec hinv hi (show W < k + 1 by omega)
  have hhas := fun a => hfound.has_iff hinv (a := a)
  -- deleting at a free index
  have hnone : r.1 = 0 → Put s pre index 0 s pre := by
    intro h0 i a
    by_cases hia : i = index
    · rw [if_pos hia, hia, hhas a, h0]
    · rw [if_neg hia]
  unfold radixTreeDelete radixTreeDeleteItem
  rw [hr]
  simp only [Option.bind_eq_bind, Option.bind_some, ne_eq, not_true_eq_false, false_and, if_false]
  cases hfound with
  | beyond hno => exact ⟨s, 0, rfl, hinv, hhas, hnone rfl⟩
  | root hrn h0 =>
    dsimp only
    by_cases hz : s.rnode = 0
    · rw [if_pos ⟨hz, Or.inl hinv.notIdr⟩]
      exact ⟨s, 0, rfl, hinv, fun a => by rw [hhas a, hz], hnone hz⟩
    · rw [if_neg fun h => hz h.1]
      have hz' : ¬ isInternalNode 0 := by intro h; cases h
      obtain ⟨h1, h2⟩ := setRnode_inv hinv hrn hz'
      unfold radixTreeDeleteSlot
      simp only [Option.bind_eq_bind, deleteTags_eq hinv (Or.inl rfl), Option.bind_some]
      refine ⟨s.setSlot .rnode 0, s.rnode, ?_, h1, hhas, h0 ▸ h2⟩
      unfold replaceSlot
      simp [hz']
  | @node n o h hint =>
    dsimp only
    by_cases hz : (s.node n).slots o = 0
    · rw [if_pos ⟨hz, Or.inl hinv.notIdr⟩]
      exact ⟨s, 0, rfl, hinv, fun a => by rw [hhas a, hz], hnone hz⟩
    · rw [if_neg fun h => hz h.1]
      unfold radixTreeDeleteSlot
      simp only [Option.bind_eq_bind, deleteTags_eq hinv (Or.inr h.live), Option.bind_some,
        if_pos (hinv.addr n h.live).1]
      generalize (if exceptionalEntry (s.getSlot (.slots n o)) then (-1 : ℤ) else 0) = d
      obtain ⟨h1, h2, h3, h4⟩ := replaceSlot_inv hinv h hint hz d
      obtain ⟨s', d', heq, h5, h6⟩ := deleteNode_spec (k := k + 1) (d := false) h1
        (h3 ▸ h.live) (by omega)
      rw [heq]
      exact ⟨s', _, rfl, h5, hhas, fun i a => (h6 i a).trans (h2 i a)⟩

end HardStack.Radix.Delete
