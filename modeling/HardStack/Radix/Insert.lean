import HardStack.Radix.Layout

/-! # Insertion

`radix_tree_extend` puts nodes on top until the index is in range, `__radix_tree_create` adds the
nodes that are missing on the way down; neither changes the content. Where the index is taken,
nothing is added at all (`radixTreeCreate_spec`), so `-EEXIST` leaves the tree as it was. -/

namespace HardStack.Radix.Insert

open HardStack.Lib.Trie HardStack.Radix.Model HardStack.Radix.Layout

variable {W : ℕ} {s : Tree} {pre : ℕ → ℕ} {malloc : Finset ℕ → ℕ}

/-- An address for a new node: not `NULL`, aligned, and not in use. -/
def Fresh (L : Finset ℕ) (p : ℕ) : Prop := p ≠ 0 ∧ 4 ∣ p ∧ p ∉ L

/-- An allocation succeeds. -/
def Malloc (malloc : Finset ℕ → ℕ) : Prop := ∀ L, Fresh L (malloc L)

/-- The tree with a new zeroed node. -/
def newNode (s : Tree) (p parent shift offset count : ℕ) : Tree :=
  { s with
    live := insert p s.live
    node := Function.update s.node p
      ⟨shift % 256, offset % 256, count % 256, 0, parent, fun _ => 0, fun _ _ => 0⟩ }

theorem radixTreeNodeAlloc_eq (hm : Malloc malloc) (s : Tree) (parent shift offset count : ℕ) :
    radixTreeNodeAlloc malloc s parent shift offset count =
      some (newNode s (malloc s.live) parent shift offset count, malloc s.live) := by
  obtain ⟨h0, h4, -⟩ := hm s.live
  have hint : ¬ isInternalNode (malloc s.live) := by unfold isInternalNode; omega
  unfold radixTreeNodeAlloc
  simp only [if_neg hint, if_neg h0]
  rfl

/-! ### Tags stay clear -/

theorem rootTagGet_eq (h : s.gfpMask < 2 ^ ROOT_TAG_SHIFT) (tag : ℕ) : s.rootTagGet tag = false := by
  unfold Tree.rootTagGet
  exact Nat.testBit_lt_two_pow (h.trans_le (Nat.pow_le_pow_right (by omega) (by omega)))

theorem extendTags_eq (h : s.gfpMask < 2 ^ ROOT_TAG_SHIFT) (hidr : ¬ s.isIdr) (n : ℕ) :
    extendTags W s n = s := by
  unfold extendTags
  rw [if_neg hidr]
  simp [RADIX_TREE_MAX_TAGS, List.range_succ, rootTagGet_eq h]

/-! ### `radix_tree_extend` -/

theorem extendShift_spec {index : ℕ} (hi : index < 2 ^ W) : ∀ {k m : ℕ}, m < W → W ≤ m + k →
    ∃ r j, extendShift W index k m = some r ∧ r = m + 6 * j ∧ r < W ∧ index < 2 ^ (r + 6) ∧
      (2 ^ m ≤ index → 2 ^ r ≤ index)
  | 0, m, hm, hk => absurd hk (by omega)
  | k + 1, m, hm, hk => by
    rw [extendShift]
    by_cases hgt : index > shiftMaxindex W m
    · have hle := (lt_shiftMaxindex hi).mp hgt
      have hlt : m + 6 < W := (Nat.pow_lt_pow_iff_right (by omega)).mp (hle.trans_lt hi)
      rw [if_pos hgt]
      obtain ⟨r, j, hr, hrj, hrW, hri, hmin⟩ :=
        extendShift_spec hi (k := k) (m := m + 6) hlt (by omega)
      exact ⟨r, j + 1, hr, by omega, hrW, hri, fun _ => hmin hle⟩
    · rw [if_neg hgt]
      refine ⟨m, 0, rfl, rfl, hm, ?_, id⟩
      by_contra hle
      exact hgt ((lt_shiftMaxindex hi).mpr (by omega))

/-- The tree with the new node `p` on top. -/
def pushTop (s : Tree) (p shift : ℕ) : Tree :=
  let entry := s.rnode
  let s := newNode s p 0 shift 0 1
  let s := if isInternalNode entry then s.setParent (entryToNode entry) p
    else if exceptionalEntry entry then s.setExceptional p 1 else s
  { s.setSlot (.slots p 0) entry with rnode := nodeToEntry p }

section

variable {p shift : ℕ}

theorem pushTop_live : (pushTop s p shift).live = insert p s.live := by
  unfold pushTop
  dsimp only
  split_ifs <;> rfl

theorem pushTop_mask : (pushTop s p shift).gfpMask = s.gfpMask := by
  unfold pushTop
  dsimp only
  split_ifs <;> rfl

/-- The fields of the old nodes: only the old top gets a parent. -/
theorem pushTop_node {x : ℕ} (hx : x ≠ p) : (pushTop s p shift).node x =
    { s.node x with parent := if isInternalNode s.rnode ∧ x = entryToNode s.rnode then p
        else (s.node x).parent } := by
  unfold pushTop
  simp only [Tree.setSlot, Tree.setNode, Tree.setParent, Tree.setExceptional, newNode]
  split_ifs with h1 h2 h2 h3 h3 <;> simp_all

theorem pushTop_new (shift : ℕ) (h : ¬ (isInternalNode s.rnode ∧ p = entryToNode s.rnode)) :
    ∃ e, (pushTop s p shift).node p = ⟨shift % 256, 0, 1, e, 0,
      Function.update (fun _ => 0) 0 s.rnode, fun _ _ => 0⟩ := by
  unfold pushTop
  simp only [Tree.setSlot, Tree.setNode, Tree.setParent, Tree.setExceptional, newNode]
  split_ifs with h1 h2
  · have hp : p ≠ entryToNode s.rnode := fun hp => h ⟨h1, hp⟩
    simp [hp]
  · simp
  · simp

/-- The shift of a new node on top. -/
structure TopShift (s : Tree) (shift : ℕ) : Prop where
  used : s.rnode ≠ 0
  item : ¬ isInternalNode s.rnode → shift = 0
  node : isInternalNode s.rnode → shift = (s.node (entryToNode s.rnode)).shift + 6

theorem onTop_pushTop (hinv : Inv W s pre) (hf : Fresh s.live p) (hshift : shift < 256) :
    OnTop (view s pre) (view (pushTop s p shift) (Function.update pre p 0)) p shift := by
  obtain ⟨hp0, h4, hp⟩ := hf
  have hne : ∀ x ∈ s.live, x ≠ p := fun x hx hxp => hp (hxp ▸ hx)
  have hroot : ∀ x, (view s pre).root = .node x ↔ isInternalNode s.rnode ∧ x = entryToNode s.rnode :=
    fun x => decode_eq_node
  have hold : ∀ x ∈ s.live, (view (pushTop s p shift) (Function.update pre p 0)).cell x =
      viewCell { s.node x with parent := if isInternalNode s.rnode ∧ x = entryToNode s.rnode then p
        else (s.node x).parent } (pre x) := by
    intro x hx
    show viewCell _ _ = _
    rw [pushTop_node (hne x hx), Function.update_of_ne (hne x hx)]
  refine ⟨decode_nodeToEntry h4, pushTop_live, ?_, fun x hx => ?_, fun x hx hr => ?_,
    fun x hx hr => ?_⟩
  · obtain ⟨e, he⟩ := pushTop_new (s := s) (p := p) shift
      (fun h => hp (h.2 ▸ (hinv.root h.1).1))
    show viewCell _ _ = _
    rw [he, Function.update_self]
    ext o
    all_goals simp only [viewCell, Nat.mod_eq_of_lt hshift]
    · simp
    · by_cases ho : o = 0
      · subst ho; simp [view]
      · simp [ho]
  · rw [hold x hx]
    rfl
  · rw [hold x hx, if_pos ((hroot x).mp hr)]
    simp [viewCell, hp0]
  · rw [hold x hx, if_neg (fun h => hr ((hroot x).mpr h))]
    rfl

/-- **A new node on top** keeps the invariant and the content. -/
theorem pushTop_inv (hinv : Inv W s pre) (hW : W ≤ 64) (hf : Fresh s.live p)
    (ht : TopShift s shift) (hshift : shift < W) :
    Inv W (pushTop s p shift) (Function.update pre p 0) ∧
      ∀ i a, Has (pushTop s p shift) (Function.update pre p 0) i a ↔ Has s pre i a := by
  have hon := onTop_pushTop hinv hf (show shift < 256 by omega)
  have hp := hf.2.2
  have hused : (view s pre).root.used := by
    show (decode s.rnode).used
    cases hd : decode s.rnode with
    | empty => exact absurd (decode_eq_empty.mp hd) ht.used
    | item a => rfl
    | node n => rfl
  have hitem : ∀ a, (view s pre).root = .item a → shift = 0 := fun a ha =>
    ht.item (decode_eq_item.mp ha).2.2
  have hnode : ∀ r, (view s pre).root = .node r → shift = ((view s pre).cell r).shift + 6 := by
    intro r hr
    obtain ⟨h1, rfl⟩ := decode_eq_node.mp hr
    exact ht.node h1
  obtain ⟨e, he⟩ := pushTop_new (s := s) (p := p) shift (fun h => hp (h.2 ▸ (hinv.root h.1).1))
  have hmem : ∀ {x}, x ∈ (pushTop s p shift).live → x = p ∨ x ∈ s.live ∧ x ≠ p := by
    intro x hx
    rw [pushTop_live, Finset.mem_insert] at hx
    by_cases hxp : x = p
    · exact Or.inl hxp
    · exact Or.inr ⟨hx.resolve_left hxp, hxp⟩
  refine ⟨⟨hon.wf hinv.wf hp hused hitem hnode, fun x hx => ?_, fun x hx => ?_, ?_, ?_,
    fun x hx tag idx => ?_, fun x hx => ?_⟩, fun i a => hon.holds hp hitem⟩
  · rcases hmem hx with rfl | ⟨hx, -⟩
    · exact ⟨hf.1, hf.2.1⟩
    · exact hinv.addr x hx
  · rcases hmem hx with rfl | ⟨hx, hxp⟩
    · rw [he]
      show shift % 256 < W
      omega
    · rw [pushTop_node hxp]
      exact hinv.shift x hx
  · rw [pushTop_mask]
    exact hinv.mask
  · unfold Tree.isIdr
    rw [pushTop_mask]
    exact hinv.notIdr
  · rcases hmem hx with rfl | ⟨hx, hxp⟩
    · rw [he]
    · rw [pushTop_node hxp]
      exact hinv.tags x hx tag idx
  · rcases hmem hx with rfl | ⟨hx, hxp⟩
    · rw [Function.update_self, Nat.zero_mul]
      positivity
    · rw [pushTop_node hxp, Function.update_of_ne hxp]
      exact hinv.start x hx

end

/-- One round of the loop. -/
theorem extendLoop_succ (hm : Malloc malloc) (hinv : Inv W s pre) {maxshift k shift : ℕ}
    (hshift : shift < W) : extendLoop W malloc maxshift (k + 1) s shift s.rnode =
      if shift + 6 ≤ maxshift then extendLoop W malloc maxshift k (pushTop s (malloc s.live) shift)
        (shift + 6) (nodeToEntry (malloc s.live))
      else some (pushTop s (malloc s.live) shift, 0) := by
  rw [extendLoop, radixTreeNodeAlloc_eq hm]
  simp only [Option.bind_eq_bind, Option.bind_some, if_neg (hm s.live).1]
  rw [extendTags_eq (s := newNode s (malloc s.live) 0 shift 0 1) hinv.mask hinv.notIdr,
    if_neg (by omega)]
  rfl

theorem extendLoop_spec (hm : Malloc malloc) (hW : W ≤ 64) {maxshift : ℕ} (hmax : maxshift < W) :
    ∀ {k shift : ℕ} {s : Tree} {pre : ℕ → ℕ}, Inv W s pre → TopShift s shift → shift ≤ maxshift →
    6 ∣ maxshift - shift → maxshift - shift < k →
    ∃ s' pre', extendLoop W malloc maxshift k s shift s.rnode = some (s', 0) ∧ Inv W s' pre' ∧
      (∀ i a, Has s' pre' i a ↔ Has s pre i a) ∧ isInternalNode s'.rnode ∧
      (s'.node (entryToNode s'.rnode)).shift = maxshift
  | 0, _, _, _, _, _, _, _, hk => absurd hk (by omega)
  | k + 1, shift, s, pre, hinv, ht, hle, hdvd, hk => by
    rw [extendLoop_succ hm hinv (by omega)]
    have hf := hm s.live
    generalize malloc s.live = p at hf ⊢
    obtain ⟨hinv', hhas⟩ := pushTop_inv hinv hW hf ht (by omega)
    have hr : (pushTop s p shift).rnode = nodeToEntry p := rfl
    have hint : isInternalNode (pushTop s p shift).rnode := isInternalNode_nodeToEntry hf.2.1
    have htop : ((pushTop s p shift).node (entryToNode (pushTop s p shift).rnode)).shift = shift := by
      obtain ⟨e, he⟩ := pushTop_new (s := s) (p := p) shift
        (fun h => hf.2.2 (h.2 ▸ (hinv.root h.1).1))
      rw [hr, entryToNode_nodeToEntry hf.2.1, he]
      exact Nat.mod_eq_of_lt (by omega)
    by_cases hmore : shift + 6 ≤ maxshift
    · rw [if_pos hmore, ← hr]
      have ht' : TopShift (pushTop s p shift) (shift + 6) := by
        refine ⟨?_, fun h => absurd hint h, fun _ => by rw [htop]⟩
        rw [hr, nodeToEntry_eq hf.2.1]
        omega
      obtain ⟨s', pre', heq, h1, h2, h3, h4⟩ := extendLoop_spec hm hW hmax (k := k) hinv' ht'
        hmore (by omega) (by omega)
      exact ⟨s', pre', heq, h1, fun i a => (h2 i a).trans (hhas i a), h3, h4⟩
    · rw [if_neg hmore]
      exact ⟨_, _, rfl, hinv', hhas, hint, by rw [htop]; omega⟩

/-- The start of the descent: an index in range of the `shift` above the root. -/
structure Head (W : ℕ) (s : Tree) (index shift : ℕ) : Prop where
  dvd : 6 ∣ shift
  lt : shift < W + 6
  fits : index < 2 ^ shift
  node : isInternalNode s.rnode → shift = (s.node (entryToNode s.rnode)).shift + 6
  item : s.rnode ≠ 0 → ¬ isInternalNode s.rnode → shift = 0

/-- **`radix_tree_extend`** brings the index in range and keeps the content. -/
theorem radixTreeExtend_spec (hm : Malloc malloc) (hW : W ≤ 64) (hinv : Inv W s pre) {index fuel : ℕ}
    (hi : index < 2 ^ W) (hf : W < fuel) (hgt : index > (radixTreeLoadRoot W s).1) :
    ∃ (s' : Tree) (pre' : ℕ → ℕ) (shift : ℕ), radixTreeExtend W malloc fuel s index (radixTreeLoadRoot W s).2 =
        some (s', ((shift : ℕ) : ℤ)) ∧ Inv W s' pre' ∧ (∀ i a, Has s' pre' i a ↔ Has s pre i a) ∧
      Head W s' index shift := by
  have hmaxi := lt_maxindex (s := s) hi
  -- the shift above the root leaves room for the index
  have hstart : (radixTreeLoadRoot W s).2 < W ∧ 6 ∣ (radixTreeLoadRoot W s).2 := by
    unfold radixTreeLoadRoot at hgt ⊢
    split_ifs at hgt ⊢ with hr
    · have hle := (lt_shiftMaxindex hi).mp hgt
      refine ⟨(Nat.pow_lt_pow_iff_right (by omega)).mp (hle.trans_lt hi), ?_⟩
      exact dvd_add (hinv.wf.dvd _ (hinv.root hr).1) dvd_rfl
    · refine ⟨?_, dvd_zero 6⟩
      by_contra hW0
      simp only [not_lt, nonpos_iff_eq_zero] at hW0
      rw [hW0] at hi
      simp only [gt_iff_lt] at hgt
      omega
  obtain ⟨r, j, hr, hrj, hrW, hri, -⟩ := extendShift_spec hi (k := fuel) hstart.1 (by omega)
  have hdvd : 6 ∣ r := by rw [hrj]; exact dvd_add hstart.2 (dvd_mul_right 6 j)
  unfold radixTreeExtend
  rw [hr]
  simp only [Option.bind_eq_bind, Option.bind_some]
  by_cases h0 : s.rnode = 0
  · rw [if_pos ⟨h0, Or.inl hinv.notIdr⟩]
    refine ⟨s, pre, r + 6, rfl, hinv, fun _ _ => Iff.rfl, ⟨dvd_add hdvd dvd_rfl, by omega, hri, ?_,
      fun h => absurd h0 h⟩⟩
    rw [h0]
    intro h
    cases h
  · rw [if_neg fun h => h0 h.1]
    have ht : TopShift s (radixTreeLoadRoot W s).2 := by
      unfold radixTreeLoadRoot
      exact ⟨h0, fun h => by rw [if_neg h], fun h => by rw [if_pos h]; rfl⟩
    obtain ⟨s', pre', heq, h1, h2, h3, h4⟩ := extendLoop_spec hm hW hrW (k := fuel) hinv ht
      (by omega) (by omega) (by omega)
    rw [heq]
    refine ⟨s', pre', r + 6, rfl, h1, h2, ⟨dvd_add hdvd dvd_rfl, by omega, hri, fun _ => by rw [h4],
      fun _ h => absurd h3 h⟩⟩

/-! ### `__radix_tree_create` -/

/-- The tree with the new node `p` in the slot `o` of `n`. -/
def pushChild (s : Tree) (p n shift o : ℕ) : Tree :=
  ((newNode s p n shift o 0).setSlot (.slots n o) (nodeToEntry p)).setCount n 1

section

variable {p n shift o : ℕ}

theorem pushChild_node {x : ℕ} (hx : x ≠ p) (hxn : x ≠ n) :
    (pushChild s p n shift o).node x = s.node x := by
  simp [pushChild, newNode, Tree.setSlot, Tree.setCount, Tree.setNode, hx, hxn]

theorem pushChild_parent (hn : n ≠ p) : (pushChild s p n shift o).node n =
    { s.node n with
      slots := Function.update (s.node n).slots o (nodeToEntry p)
      count := addChar (s.node n).count 1 } := by
  simp [pushChild, newNode, Tree.setSlot, Tree.setCount, Tree.setNode, hn]

theorem pushChild_new (shift o : ℕ) (hn : n ≠ p) : (pushChild s p n shift o).node p =
    ⟨shift % 256, o % 256, 0, 0, n, fun _ => 0, fun _ _ => 0⟩ := by
  simp [pushChild, newNode, Tree.setSlot, Tree.setCount, Tree.setNode, Ne.symm hn]

/-- The memory that differs from an invariant one in nodes that satisfy the side conditions. -/
theorem Inv.of_wf {s' : Tree} {pre' : ℕ → ℕ} (hinv : Inv W s pre) (hwf : Wf 6 (view s' pre'))
    (hmask : s'.gfpMask = s.gfpMask)
    (hnode : ∀ x ∈ s'.live, (x ≠ 0 ∧ 4 ∣ x) ∧ (s'.node x).shift < W ∧
      (∀ tag idx, (s'.node x).tags tag idx = 0) ∧
      pre' x * 2 ^ ((s'.node x).shift + 6) < 2 ^ W) : Inv W s' pre' := by
  refine ⟨hwf, fun x hx => (hnode x hx).1, fun x hx => (hnode x hx).2.1, ?_, ?_,
    fun x hx => (hnode x hx).2.2.1, fun x hx => (hnode x hx).2.2.2⟩
  · rw [hmask]; exact hinv.mask
  · unfold Tree.isIdr
    rw [hmask]
    exact hinv.notIdr

/-- **A new node below an empty slot** keeps the invariant and the content. -/
theorem pushChild_inv (hinv : Inv W s pre) (hW : W ≤ 64) (hf : Fresh s.live p) (hn : n ∈ s.live)
    (ho : o < 64) (hs : (s.node n).shift = shift + 6) (he : (s.node n).slots o = 0)
    (hstart : (pre n * 64 + o) * 2 ^ (shift + 6) < 2 ^ W) :
    Inv W (pushChild s p n shift o) (Function.update pre p (pre n * 64 + o)) ∧
      ∀ i a, Has (pushChild s p n shift o) (Function.update pre p (pre n * 64 + o)) i a ↔
        Has s pre i a := by
  obtain ⟨hp0, h4, hp⟩ := hf
  have hnp : n ≠ p := fun h => hp (h ▸ hn)
  have hn0 := (hinv.addr n hn).1
  have hsW := hinv.shift n hn
  have hview : view (pushChild s p n shift o) (Function.update pre p (pre n * 64 + o)) =
      ((view s pre).alloc p shift o (some n) (pre n * 64 + o)).setSlot n o (.node p)
        ((s.node n).count + 1) := by
    have hcount := hinv.count_le hn
    ext x : 2
    · rfl
    · rfl
    · rw [Store.cell_setSlot, Store.cell_alloc, Store.cell_alloc]
      show viewCell ((pushChild s p n shift o).node x) (Function.update pre p (pre n * 64 + o) x) = _
      by_cases hxn : x = n
      · subst hxn
        rw [if_pos rfl, if_neg hnp, pushChild_parent hnp, Function.update_of_ne hnp,
          addChar_one (by omega)]
        ext y
        all_goals try rfl
        simp only [viewCell, Cell.put, view, Function.update_apply]
        split_ifs
        · exact decode_nodeToEntry h4
        · rfl
      · by_cases hxp : x = p
        · subst hxp
          rw [if_neg hxn, if_pos rfl, pushChild_new _ _ hnp, Function.update_self]
          ext y
          all_goals simp only [viewCell, if_neg hn0]
          · exact Nat.mod_eq_of_lt (by omega)
          · exact Nat.mod_eq_of_lt (by omega)
          · simp
        · rw [if_neg hxn, if_neg hxp, pushChild_node hxp hxn, Function.update_of_ne hxp]
          rfl
  have hslot : ((view s pre).cell n).slot o = .empty := decode_eq_empty.mpr he
  refine ⟨Inv.of_wf hinv ?_ rfl ?_, fun i a => ?_⟩
  · rw [hview]
    exact hinv.wf.addChild hn hp ho hslot hs
  · intro x hx
    by_cases hxp : x = p
    · subst hxp
      rw [pushChild_new _ _ hnp, Function.update_self]
      refine ⟨⟨hp0, h4⟩, by show shift % 256 < W; omega, fun _ _ => rfl, ?_⟩
      rwa [Nat.mod_eq_of_lt (show shift < 256 by omega)]
    · have hx' : x ∈ s.live := (Finset.mem_insert.mp hx).resolve_left hxp
      refine ⟨hinv.addr x hx', ?_⟩
      rw [Function.update_of_ne hxp]
      by_cases hxn : x = n
      · subst hxn
        rw [pushChild_parent hnp]
        exact ⟨hinv.shift x hx', hinv.tags x hx', hinv.start x hx'⟩
      · rw [pushChild_node hxp hxn]
        exact ⟨hinv.shift x hx', hinv.tags x hx', hinv.start x hx'⟩
  · unfold Has
    rw [hview]
    exact Wf.holds_addChild hn hp hslot

end

/-- What the descent leaves: the slot of the index in a leaf, the content as before, and nothing
changed where the index is taken. -/
structure Created (W : ℕ) (s : Tree) (pre : ℕ → ℕ) (index : ℕ) (s' : Tree) (pre' : ℕ → ℕ)
    (n o : ℕ) : Prop where
  inv : Inv W s' pre'
  has : ∀ i a, Has s' pre' i a ↔ Has s pre i a
  slot : SlotOf s' pre' index n o
  leaf : (s'.node n).shift = 0
  same : (∃ a, Has s pre index a) → s' = s

theorem createLoop_spec (hm : Malloc malloc) (hW : W ≤ 64) {index : ℕ} (hi : index < 2 ^ W) :
    ∀ {k n o : ℕ} {s : Tree} {pre : ℕ → ℕ}, Inv W s pre → SlotOf s pre index n o →
    (s.node n).shift < k → ∃ s' pre' n' o',
      createLoop malloc index 0 k s (s.node n).shift ((s.node n).slots o) n o (.slots n o) =
        some (s', 0, n', .slots n' o') ∧ Created W s pre index s' pre' n' o'
  | 0, _, _, _, _, _, _, hk => absurd hk (by omega)
  | k + 1, n, o, s, pre, hinv, h, hk => by
    rw [createLoop]
    simp only
    by_cases hs0 : (s.node n).shift = 0
    · rw [if_neg (by omega)]
      exact ⟨s, pre, n, o, rfl, hinv, fun _ _ => Iff.rfl, h, hs0, fun _ => rfl⟩
    · rw [if_pos (by omega)]
      have hdvd : 6 ∣ (s.node n).shift := hinv.wf.dvd n h.live
      have hs : (s.node n).shift = ((s.node n).shift - 6) + 6 := by omega
      by_cases hc : (s.node n).slots o = 0
      · -- a node is missing: the index is free
        rw [if_pos hc, radixTreeNodeAlloc_eq hm]
        have hf := hm s.live
        simp only [Option.bind_eq_bind, Option.bind_some, if_neg hf.1, if_pos (hinv.addr n h.live).1]
        generalize malloc s.live = p at hf ⊢
        have hnp : n ≠ p := fun he => hf.2.2 (he ▸ h.live)
        have hstart : (pre n * 64 + o) * 2 ^ ((s.node n).shift - 6 + 6) < 2 ^ W := by
          have hdigit : pre n * 64 + o = index / 2 ^ (s.node n).shift := by
            rw [h.digits, h.offset, pow_add, ← Nat.div_div_eq_div_mul]
            exact Nat.div_add_mod' _ _
          rw [← hs, hdigit]
          exact (Nat.div_mul_le_self _ _).trans_lt hi
        obtain ⟨hinv', hhas⟩ := pushChild_inv hinv hW hf h.live h.offset_lt hs hc hstart
        have hnew := pushChild_new (s := s) ((s.node n).shift - 6) o hnp
        have hshift : ((pushChild s p n ((s.node n).shift - 6) o).node p).shift =
            (s.node n).shift - 6 := by
          have := hinv.shift n h.live
          rw [hnew]
          exact Nat.mod_eq_of_lt (by omega)
        have hslot : SlotOf (pushChild s p n ((s.node n).shift - 6) o)
            (Function.update pre p (pre n * 64 + o)) index p
            (descendOffset (pushChild s p n ((s.node n).shift - 6) o) p index) := by
          refine ⟨Finset.mem_insert_self _ _, ?_, rfl⟩
          rw [Function.update_self, hshift, ← hs, h.digits, h.offset, pow_add,
            ← Nat.div_div_eq_div_mul]
          exact Nat.div_add_mod' _ _
        obtain ⟨s', pre', n', o', heq, hcr⟩ := createLoop_spec hm hW hi (k := k) hinv' hslot
          (by rw [hshift]; omega)
        rw [hshift] at heq
        refine ⟨s', pre', n', o', ?_, hcr.inv, fun i a => (hcr.has i a).trans (hhas i a), hcr.slot,
          hcr.leaf, ?_⟩
        · rw [entryToNode_of_dvd hf.2.1]
          exact heq
        · rintro ⟨a, ha⟩
          have hint : ¬ isInternalNode ((s.node n).slots o) := by rw [hc]; intro h; cases h
          exact absurd (((h.has_iff hinv hint).mp ha).1.symm.trans hc)
            ((h.has_iff hinv hint).mp ha).2
      · -- a slot of an inner node holds no item
        have hint : isInternalNode ((s.node n).slots o) := by
          by_contra hint
          have hitem : ((view s pre).cell n).slot o = .item ((s.node n).slots o) :=
            decode_item hc hint
          exact hs0 (hinv.wf.leaf n h.live o h.offset_lt _ hitem)
        rw [if_neg hc, if_neg (not_not.mpr hint)]
        obtain ⟨hdown, hs'⟩ := h.down hinv.links hint
        obtain ⟨s', pre', n', o', heq, hcr⟩ := createLoop_spec hm hW hi (k := k) hinv hdown (by omega)
        refine ⟨s', pre', n', o', ?_, hcr⟩
        rw [hs', RADIX_TREE_MAP_SHIFT, Nat.add_sub_cancel]
        exact heq

/-- The tree with the new node `p` as its only one. -/
def pushRoot (s : Tree) (p shift : ℕ) : Tree :=
  (newNode s p 0 shift 0 0).setSlot .rnode (nodeToEntry p)

theorem pushRoot_node (s : Tree) (p shift x : ℕ) : (pushRoot s p shift).node x =
    if x = p then ⟨shift % 256, 0, 0, 0, 0, fun _ => 0, fun _ _ => 0⟩ else s.node x := by
  simp [pushRoot, newNode, Tree.setSlot, Function.update_apply]

theorem pushRoot_inv (hinv : Inv W s pre) (hW : W ≤ 64) {p : ℕ} (shift : ℕ) (hf : Fresh s.live p)
    (hr : s.rnode = 0) (hdvd : 6 ∣ shift) (hshift : shift < W) :
    Inv W (pushRoot s p shift) (Function.update pre p 0) ∧
      ∀ i a, Has (pushRoot s p shift) (Function.update pre p 0) i a ↔ Has s pre i a := by
  have hview : view (pushRoot s p shift) (Function.update pre p 0) =
      ((view s pre).alloc p shift 0 none 0).setRoot (.node p) := by
    ext x : 2
    · exact decode_nodeToEntry hf.2.1
    · rfl
    · rw [Store.cell_setRoot, Store.cell_alloc]
      show viewCell ((pushRoot s p shift).node x) (Function.update pre p 0 x) = _
      rw [pushRoot_node]
      by_cases hx : x = p
      · subst hx
        rw [if_pos rfl, if_pos rfl, Function.update_self]
        ext y
        all_goals simp only [viewCell]
        · exact Nat.mod_eq_of_lt (by omega)
        · simp
        · simp
      · rw [if_neg hx, if_neg hx, Function.update_of_ne hx]
        rfl
  have hroot : (view s pre).root = .empty := decode_eq_empty.mpr hr
  obtain ⟨hwf, hhas⟩ := hinv.wf.addRoot (n := p) (s := shift) (by omega) hroot hdvd
  refine ⟨Inv.of_wf hinv (hview ▸ hwf) rfl ?_, fun i a => ?_⟩
  · intro x hx
    rw [pushRoot_node]
    by_cases hxp : x = p
    · rw [if_pos hxp, hxp, Function.update_self, Nat.zero_mul]
      exact ⟨⟨hf.1, hf.2.1⟩, by show shift % 256 < W; omega, fun _ _ => rfl, by positivity⟩
    · have hx' : x ∈ s.live := (Finset.mem_insert.mp hx).resolve_left hxp
      rw [if_neg hxp, Function.update_of_ne hxp]
      exact ⟨hinv.addr x hx', hinv.shift x hx', hinv.tags x hx', hinv.start x hx'⟩
  · unfold Has
    rw [hview]
    exact hhas i a

/-- The descent from the root: a leaf's slot, or the root's where the tree has no node. -/
theorem createLoop_root (hm : Malloc malloc) (hW : W ≤ 64) (hinv : Inv W s pre) {index shift k : ℕ}
    (hi : index < 2 ^ W) (h : Head W s index shift) (hk : W < k) :
    (createLoop malloc index 0 (k + 1) s shift s.rnode 0 0 .rnode = some (s, 0, 0, .rnode) ∧
      index = 0 ∧ ¬ isInternalNode s.rnode) ∨
    ∃ s' pre' n o, createLoop malloc index 0 (k + 1) s shift s.rnode 0 0 .rnode =
      some (s', 0, n, .slots n o) ∧ Created W s pre index s' pre' n o := by
  rw [createLoop]
  simp only
  by_cases hs0 : shift = 0
  · left
    rw [if_neg (by omega)]
    refine ⟨rfl, ?_, fun hr => ?_⟩
    · have := h.fits
      rw [hs0] at this
      omega
    · have := h.node hr
      omega
  · right
    have hdvd := h.dvd
    have hlt := h.lt
    rw [if_pos (by omega)]
    by_cases hr : s.rnode = 0
    · rw [if_pos hr, radixTreeNodeAlloc_eq hm]
      have hf := hm s.live
      simp only [Option.bind_eq_bind, Option.bind_some, if_neg hf.1, ne_eq, not_true_eq_false,
        if_false]
      generalize malloc s.live = p at hf ⊢
      have hsub : shift - RADIX_TREE_MAP_SHIFT = shift - 6 := rfl
      obtain ⟨hinv', hhas⟩ := pushRoot_inv hinv hW (shift - 6) hf hr (by omega)
        (by omega)
      have hshift : ((pushRoot s p (shift - 6)).node p).shift = shift - 6 := by
        rw [pushRoot_node, if_pos rfl]
        exact Nat.mod_eq_of_lt (by omega)
      have hslot : SlotOf (pushRoot s p (shift - 6)) (Function.update pre p 0) index p
          (descendOffset (pushRoot s p (shift - 6)) p index) := by
        refine ⟨Finset.mem_insert_self _ _, ?_, rfl⟩
        rw [Function.update_self, hshift, Nat.div_eq_of_lt]
        rw [Nat.sub_add_cancel (by omega)]
        exact h.fits
      obtain ⟨s', pre', n', o', heq, hcr⟩ := createLoop_spec hm hW hi (k := k) hinv' hslot
        (by rw [hshift]; omega)
      rw [hshift] at heq
      refine ⟨s', pre', n', o', ?_, hcr.inv, fun i a => (hcr.has i a).trans (hhas i a), hcr.slot,
        hcr.leaf, ?_⟩
      · rw [entryToNode_of_dvd hf.2.1, hsub]
        exact heq
      · rintro ⟨a, ha⟩
        have hint : ¬ isInternalNode s.rnode := by rw [hr]; intro h; cases h
        obtain ⟨⟨h1, h2⟩, -⟩ := (has_root hint hinv).mp ha
        exact absurd (h1.symm.trans hr) h2
    · have hint : isInternalNode s.rnode := by
        by_contra hint
        exact hs0 (h.item hr hint)
      rw [if_neg hr, if_neg (not_not.mpr hint)]
      have hs := h.node hint
      have hslot := slotOf_root hinv.links hint (i := index) (hs ▸ h.fits)
      obtain ⟨s', pre', n', o', heq, hcr⟩ := createLoop_spec hm hW hi (k := k) hinv hslot
        (by have := hinv.shift _ hslot.live; omega)
      refine ⟨s', pre', n', o', ?_, hcr⟩
      rw [hs, RADIX_TREE_MAP_SHIFT, Nat.add_sub_cancel]
      exact heq

/-- **`__radix_tree_create`** ends at the slot of the index, with the content as before. -/
theorem radixTreeCreate_spec (hm : Malloc malloc) (hW : W ≤ 64) (hinv : Inv W s pre)
    {index fuel : ℕ} (hi : index < 2 ^ W) (hf : W + 1 < fuel) :
    (radixTreeCreate W malloc fuel s index 0 = some (s, 0, 0, .rnode) ∧ index = 0 ∧
      ¬ isInternalNode s.rnode) ∨
    ∃ s' pre' n o, radixTreeCreate W malloc fuel s index 0 = some (s', 0, n, .slots n o) ∧
      Created W s pre index s' pre' n o := by
  obtain ⟨k, rfl⟩ : ∃ k, fuel = k + 1 := ⟨fuel - 1, by omega⟩
  unfold radixTreeCreate
  simp only [pow_zero, Nat.sub_self, Nat.or_zero, gt_iff_lt, lt_self_iff_false, false_and, if_false]
  by_cases hgt : (radixTreeLoadRoot W s).1 < index
  · right
    rw [if_pos hgt]
    obtain ⟨s₁, pre₁, shift, heq, hinv₁, hhas, hhead⟩ :=
      radixTreeExtend_spec hm hW hinv hi (show W < k + 1 by omega) hgt
    rw [heq]
    simp only [Option.bind_eq_bind, Option.bind_some, Int.toNat_natCast]
    rw [if_neg (by omega)]
    -- beyond the largest index there is no content
    have hno : ∀ a, ¬ Has s pre index a := by
      intro a ha
      obtain ⟨r, hr, hfound⟩ := radixTreeLookupSlot_spec hinv hi (show W < k + 1 by omega)
      unfold radixTreeLookupSlot at hr
      rw [if_pos hgt] at hr
      obtain rfl := Option.some.inj hr
      have := (hfound.has_iff hinv).mp ha
      exact this.2 this.1.symm
    rcases createLoop_root hm hW hinv₁ hi hhead (k := k) (by omega) with ⟨-, h0, -⟩ | hcr
    · omega
    · obtain ⟨s', pre', n, o, heq', hcr⟩ := hcr
      exact ⟨s', pre', n, o, heq', hcr.inv, fun i a => (hcr.has i a).trans (hhas i a), hcr.slot,
        hcr.leaf, fun h => absurd h.choose_spec (hno _)⟩
  · rw [if_neg hgt]
    have hmax := (lt_maxindex (s := s) hi).mp (by omega)
    have hhead : Head W s index (radixTreeLoadRoot W s).2 := by
      unfold radixTreeLoadRoot
      by_cases hr : isInternalNode s.rnode
      · rw [if_pos hr] at hmax ⊢
        have hl := (hinv.root hr).1
        have hs := hinv.shift _ hl
        exact ⟨dvd_add (hinv.wf.dvd _ hl) dvd_rfl, by simp only [RADIX_TREE_MAP_SHIFT]; omega, hmax,
          fun _ => rfl, fun _ h => absurd hr h⟩
      · rw [if_neg hr] at hmax ⊢
        exact ⟨dvd_zero 6, by simp, by simp [hmax], fun h => absurd h hr, fun _ _ => rfl⟩
    exact createLoop_root hm hW hinv hi hhead (by omega)

/-! ### `__radix_tree_insert` -/

/-- Reading the content after an item is put at an index. -/
def Put (s : Tree) (pre : ℕ → ℕ) (index item : ℕ) (s' : Tree) (pre' : ℕ → ℕ) : Prop :=
  ∀ i a, Has s' pre' i a ↔ if i = index then item = a ∧ a ≠ 0 else Has s pre i a

/-- Writing an item, or `NULL`, as the root of a tree without nodes. -/
theorem setRnode_inv (hinv : Inv W s pre) (hr : ¬ isInternalNode s.rnode) {item : ℕ}
    (hitem : ¬ isInternalNode item) :
    Inv W (s.setSlot .rnode item) pre ∧ Put s pre 0 item (s.setSlot .rnode item) pre := by
  have hview : view (s.setSlot .rnode item) pre = (view s pre).setRoot (decode item) := rfl
  have hold : ∀ m, (view s pre).root ≠ .node m := fun m h => hr (decode_eq_node.mp h).1
  have hnew : ∀ m, decode item ≠ .node m := fun m h => hitem (decode_eq_node.mp h).1
  obtain ⟨hwf, hhas⟩ := hinv.wf.setRoot (by omega) hold hnew
  refine ⟨Inv.of_wf hinv (hview ▸ hwf) rfl fun x hx => ⟨hinv.addr x hx, hinv.shift x hx,
    hinv.tags x hx, hinv.start x hx⟩, fun i a => ?_⟩
  unfold Has
  rw [hview, hhas, decode_eq_item]
  by_cases hi : i = 0
  · rw [if_pos hi]
    constructor
    · rintro ⟨⟨rfl, h0, -⟩, -⟩; exact ⟨rfl, h0⟩
    · rintro ⟨rfl, h0⟩; exact ⟨⟨rfl, h0, hitem⟩, hi⟩
  · rw [if_neg hi]
    constructor
    · rintro ⟨-, h0⟩; exact absurd h0 hi
    · exact fun ha => absurd ((has_root hr hinv).mp ha).2 hi

/-- Writing an item, or `NULL`, into a slot of a leaf. -/
theorem setLeaf_inv (s' : Tree) (hinv : Inv W s pre) {index n o item c : ℕ}
    (h : SlotOf s pre index n o) (hleaf : (s.node n).shift = 0) (hitem : ¬ isInternalNode item)
    (hlive : s'.live = s.live) (hrnode : s'.rnode = s.rnode) (hmask : s'.gfpMask = s.gfpMask)
    (hother : ∀ x, x ≠ n → s'.node x = s.node x)
    (hnode : ∃ e, s'.node n = { s.node n with
      slots := Function.update (s.node n).slots o item, count := c, exceptional := e })
    (hcount : c = (((view s pre).cell n).put o (decode item) c).size 6) :
    Inv W s' pre ∧ Put s pre index item s' pre := by
  obtain ⟨e, hnode⟩ := hnode
  have hview : view s' pre = (view s pre).setSlot n o (decode item) c := by
    ext x : 2
    · show decode s'.rnode = decode s.rnode
      rw [hrnode]
    · show x ∈ s'.live ↔ x ∈ s.live
      rw [hlive]
    · rw [Store.cell_setSlot]
      show viewCell (s'.node x) (pre x) = _
      by_cases hx : x = n
      · subst hx
        rw [if_pos rfl, hnode]
        ext y
        all_goals try rfl
        simp only [viewCell, Cell.put, view, Function.update_apply]
        split_ifs <;> rfl
      · rw [if_neg hx, hother x hx]
        rfl
  -- a leaf has no child
  have hint : ¬ isInternalNode ((s.node n).slots o) := by
    intro hint
    have := (hinv.child h.live h.offset_lt hint).2
    omega
  have hold : ∀ m, ((view s pre).cell n).slot o ≠ .node m := fun m hm =>
    hint (decode_eq_node.mp hm).1
  have hnew : ∀ m, decode item ≠ .node m := fun m hm => hitem (decode_eq_node.mp hm).1
  refine ⟨Inv.of_wf hinv ?_ hmask ?_, fun i a => ?_⟩
  · rw [hview]
    exact hinv.wf.setSlot hold hnew (fun _ _ => hleaf) hcount
  · intro x hx
    rw [hlive] at hx
    refine ⟨hinv.addr x hx, ?_⟩
    by_cases hxn : x = n
    · subst hxn
      rw [hnode]
      exact ⟨hinv.shift x hx, hinv.tags x hx, hinv.start x hx⟩
    · rw [hother x hxn]
      exact ⟨hinv.shift x hx, hinv.tags x hx, hinv.start x hx⟩
  · have hidx : ((view s pre).cell n).pre * 2 ^ 6 + o = index := by
      have hd := h.digits
      have ho := h.offset
      rw [hleaf] at hd ho
      show pre n * 64 + o = index
      rw [hd, ho]
      simp only [zero_add, pow_zero, Nat.div_one]
      omega
    unfold Has
    rw [hview, hinv.wf.holds_setSlot (by omega) h.live h.offset_lt hleaf, hidx]
    split_ifs with hi
    · rw [decode_eq_item]
      constructor
      · rintro ⟨rfl, h0, -⟩; exact ⟨rfl, h0⟩
      · rintro ⟨rfl, h0⟩; exact ⟨rfl, h0, hitem⟩
    · exact Iff.rfl

theorem tagGet_eq (hinv : Inv W s pre) {n : ℕ} (hn : n ∈ s.live) (tag offset : ℕ) :
    tagGet W s n tag offset = false := by
  unfold tagGet
  rw [hinv.tags n hn]
  exact Nat.zero_testBit _

theorem insertEntires_taken {n item : ℕ} {slot : Slot} (h : s.getSlot slot ≠ 0) :
    insertEntires s n slot item = (s, -EEXIST) := by
  unfold insertEntires
  rw [if_pos h]

theorem insertEntires_rnode {item : ℕ} (h : s.getSlot .rnode = 0) :
    insertEntires s 0 .rnode item = (s.setSlot .rnode item, 1) := by
  unfold insertEntires
  rw [if_neg (not_not.mpr h)]
  rfl

/-- The tree with an item in a free slot of a node. -/
def putLeaf (s : Tree) (n o item : ℕ) : Tree :=
  let s := (s.setSlot (.slots n o) item).setCount n 1
  if exceptionalEntry item then s.setExceptional n 1 else s

theorem insertEntires_leaf {n o item : ℕ} (hn : n ≠ 0) (h : s.getSlot (.slots n o) = 0) :
    insertEntires s n (.slots n o) item = (putLeaf s n o item, 1) := by
  unfold insertEntires
  rw [if_neg (not_not.mpr h)]
  simp only [if_pos hn]
  rfl

theorem putLeaf_inv (hinv : Inv W s pre) {index n o item : ℕ} (h : SlotOf s pre index n o)
    (hleaf : (s.node n).shift = 0) (hitem : ¬ isInternalNode item) (h0 : item ≠ 0)
    (he : (s.node n).slots o = 0) :
    Inv W (putLeaf s n o item) pre ∧ Put s pre index item (putLeaf s n o item) pre := by
  have hcount := hinv.count_le h.live
  have hslot : ((view s pre).cell n).slot o = .empty := decode_eq_empty.mpr he
  have hsize := Cell.size_put (b := 6) (e := decode item) ((s.node n).count + 1) h.offset_lt hslot
    (by rw [decode_item h0 hitem]; rfl)
  refine setLeaf_inv (c := (s.node n).count + 1) _ hinv h hleaf hitem ?_ ?_ ?_ ?_ ?_ ?_
  · unfold putLeaf; dsimp only; split_ifs <;> rfl
  · unfold putLeaf; dsimp only; split_ifs <;> rfl
  · unfold putLeaf; dsimp only; split_ifs <;> rfl
  · intro x hx
    unfold putLeaf
    dsimp only
    split_ifs <;> simp [Tree.setSlot, Tree.setCount, Tree.setExceptional, Tree.setNode, hx]
  · unfold putLeaf
    dsimp only
    split_ifs
    · exact ⟨addChar (s.node n).exceptional 1, by
        simp [Tree.setSlot, Tree.setCount, Tree.setExceptional, Tree.setNode,
          addChar_one (show (s.node n).count < 255 by omega)]⟩
    · exact ⟨(s.node n).exceptional, by
        simp [Tree.setSlot, Tree.setCount, Tree.setNode,
          addChar_one (show (s.node n).count < 255 by omega)]⟩
  · rw [hsize, ← hinv.wf.count n h.live]
    rfl

/-- **`__radix_tree_insert`** returns. A taken index gives `-EEXIST` and leaves the tree as it was; a
free one gives `0` and the item is put there. -/
theorem radixTreeInsert_spec (hm : Malloc malloc) (hW : W ≤ 64) (hinv : Inv W s pre)
    {index item fuel : ℕ} (hi : index < 2 ^ W) (hitem : ¬ isInternalNode item) (h0 : item ≠ 0)
    (hf : W + 1 < fuel) :
    ((∃ a, Has s pre index a) → radixTreeInsert W malloc fuel s index 0 item = some (s, -EEXIST)) ∧
    ((∀ a, ¬ Has s pre index a) → ∃ s' pre',
      radixTreeInsert W malloc fuel s index 0 item = some (s', 0) ∧ Inv W s' pre' ∧
      Put s pre index item s' pre') := by
  have hneg : (-EEXIST : ℤ) < 0 := by decide
  unfold radixTreeInsert
  rw [if_neg hitem]
  rcases radixTreeCreate_spec hm hW hinv hi hf with ⟨heq, rfl, hr⟩ | ⟨s₁, pre₁, n, o, heq, hcr⟩
  · -- the root's slot
    rw [heq]
    simp only [Option.bind_eq_bind, Option.bind_some, ne_eq, not_true_eq_false, if_false]
    constructor
    · rintro ⟨a, ha⟩
      obtain ⟨⟨h1, h2⟩, -⟩ := (has_root hr hinv).mp ha
      have hget : s.getSlot .rnode ≠ 0 := by show s.rnode ≠ 0; rw [h1]; exact h2
      rw [insertEntires_taken hget]
      simp only [if_pos hneg]
    · intro hno
      have hz : s.rnode = 0 := by
        by_contra hz
        exact hno s.rnode ((has_root hr hinv).mpr ⟨⟨rfl, hz⟩, rfl⟩)
      obtain ⟨hinv', hput⟩ := setRnode_inv hinv hr hitem
      have htags : (s.setSlot .rnode item).rootTagsGet = 0 := Nat.div_eq_of_lt hinv.mask
      refine ⟨_, pre, ?_, hinv', hput⟩
      rw [insertEntires_rnode hz]
      simp [htags]
  · -- a leaf's slot
    rw [heq]
    simp only [Option.bind_eq_bind, Option.bind_some, ne_eq, not_true_eq_false, if_false]
    have hn0 := (hcr.inv.addr n hcr.slot.live).1
    have hint : ¬ isInternalNode ((s₁.node n).slots o) := by
      intro hint
      have := (hcr.inv.child hcr.slot.live hcr.slot.offset_lt hint).2
      have := hcr.leaf
      omega
    have hhas : ∀ a, Has s pre index a ↔ (s₁.node n).slots o = a ∧ a ≠ 0 := fun a =>
      (hcr.has index a).symm.trans (hcr.slot.has_iff hcr.inv hint)
    constructor
    · rintro ⟨a, ha⟩
      obtain ⟨h1, h2⟩ := (hhas a).mp ha
      have hget : s₁.getSlot (.slots n o) ≠ 0 := by
        show (s₁.node n).slots o ≠ 0
        rw [h1]
        exact h2
      rw [insertEntires_taken hget, hcr.same ⟨a, ha⟩]
      simp only [if_pos hneg]
    · intro hno
      have hz : (s₁.node n).slots o = 0 := by
        by_contra hz
        exact hno _ ((hhas _).mpr ⟨rfl, hz⟩)
      obtain ⟨hinv', hput⟩ := putLeaf_inv hcr.inv hcr.slot hcr.leaf hitem h0 hz
      have hlive : n ∈ (putLeaf s₁ n o item).live := by
        have : (putLeaf s₁ n o item).live = s₁.live := by
          unfold putLeaf; dsimp only; split_ifs <;> rfl
        rw [this]
        exact hcr.slot.live
      refine ⟨_, pre₁, ?_, hinv', fun i a => ?_⟩
      · rw [insertEntires_leaf hn0 hz]
        simp [hn0, tagGet_eq hinv' hlive]
      · rw [hput i a, hcr.has i a]

end HardStack.Radix.Insert
