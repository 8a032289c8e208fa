import HardStack.LcTrie.Lookup

/-! # Insertion

A new leaf goes into the empty slot where the search for its key has ended, or, if there is a tree that
lacks the leading bits of the key, next to this tree below a new inner node. -/

namespace HardStack.LcTrie.Insert

open HardStack.Lib.Patricia HardStack.LcTrie.Model HardStack.LcTrie.Layout HardStack.LcTrie.Lookup

variable {s s' : State} {t above key new n i j : ℕ} {C T : PTree ℕ} {Z : Ctx ℕ} {v : Node} {c : Chunks}

/-- **What `kmalloc` promises**: two pieces of memory that are not in use. -/
structure Fresh (s : State) (c : Chunks) : Prop where
  l_pos : c.l ≠ 0
  tn_pos : c.tn ≠ 0
  ne : c.l ≠ c.tn
  l : s.mem c.l = none
  tn : s.mem c.tn = none

@[simp] theorem mem_store_self : (s.store n v).mem n = some v := Function.update_self _ _ _

theorem mem_store_of_ne {p : ℕ} (h : p ≠ n) : (s.store n v).mem p = s.mem p :=
  Function.update_of_ne h _ _

theorem store_store (w : Node) : (s.store n v).store n w = s.store n w := by
  unfold State.store
  rw [Function.update_idem]

@[simp] theorem outside_store : (s.store n v).outside = s.outside := rfl

/-! ### Writes to a slot -/

/-- The slot of the hole is the index of a key that fits in. -/
theorem slot_spec (hZ : RepCtx t above s Z i) (hwfZ : Z.Wf 32) (hv : s.mem (up t Z) = some v)
    (hpre : key / 2 ^ Z.depth 32 = Z.pre) :
    getIndex key v = slot Z ∧ getCindex key v = slot Z := by
  have hkey : key < 2 ^ 32 := hwfZ.lt_two_pow hpre
  have hmod : getCindex key v = getIndex key v ∨ ¬ v.key < 2 ^ 32 := by
    by_cases hk : v.key < 2 ^ 32
    · left
      unfold getCindex getIndex
      rw [Nat.mod_eq_of_lt (Nat.xor_lt_two_pow hkey hk)]
    · exact Or.inr hk
  have hvkey : v.key < 2 ^ 32 ∧ getIndex key v = slot Z := by
    cases Z with
    | nil =>
      obtain ⟨w, hw, -, hk, hpos, -⟩ := hZ
      obtain rfl : v = w := Option.some.inj (hv.symm.trans hw)
      refine ⟨by rw [hk]; decide, ?_⟩
      unfold getIndex
      rw [hk, hpos, Nat.xor_zero, Nat.div_eq_of_lt hkey]
      rfl
    | cons f Z =>
      obtain ⟨⟨-, w, hw, -, hk, hpos, -⟩, -, -⟩ := hZ
      obtain rfl : v = w := Option.some.inj (hv.symm.trans hw)
      obtain ⟨hlt, hdvd, hfk, -, hwfZ⟩ := hwfZ
      have hdir := div_two_pow_eq key f.pos
      have hpre' : key / 2 ^ f.pos = 2 * (f.key / 2 ^ (f.pos + 1)) + f.dir.toNat := hpre
      have hup : key / 2 ^ (f.pos + 1) = f.key / 2 ^ (f.pos + 1) := by
        have := Bool.toNat_lt f.dir
        rw [div_two_pow_succ key, hpre']
        omega
      rw [hpre', hup] at hdir
      refine ⟨hk ▸ hwfZ.lt_two_pow hfk, ?_⟩
      unfold getIndex
      rw [hpos, hk, xor_shift_eq hdvd hup]
      show _ = f.dir.toNat
      omega
  rcases hmod with h | h
  · exact ⟨hvkey.2, h.trans hvkey.2⟩
  · exact absurd hvkey.1 h

/-- **A write to the slot of the hole.** -/
theorem putChildIndex_slot (hZ : RepCtx t above s Z i) (hwfZ : Z.Wf 32)
    (hv : s.mem (up t Z) = some v) (n : ℕ) : putChildIndex s (up t Z) (slot Z) n =
      .ok (s.store (up t Z) { v with tnode := Function.update v.tnode (slot Z) n }) := by
  cases Z with
  | nil =>
    obtain ⟨w, hw, -, -, hpos, -⟩ := hZ
    obtain rfl : v = w := Option.some.inj (hv.symm.trans hw)
    exact putChildIndex_root hv hpos n
  | cons f Z =>
    obtain ⟨⟨-, w, hw, -, -, hpos, hbits, -⟩, -, -⟩ := hZ
    obtain rfl : v = w := Option.some.inj (hv.symm.trans hw)
    have hlt : f.pos < 32 := hwfZ.1.trans_le (depth_le hwfZ.2.2.2.2)
    have hnot : ¬ isTrie v = true := by
      unfold isTrie B32T_KEYLENGTH
      rw [hpos, decide_eq_true_eq]
      omega
    have hlen : ¬ slot (f :: Z) ≥ childLength v := by
      have : slot (f :: Z) < 2 := Bool.toNat_lt f.dir
      unfold childLength
      rw [hbits]
      omega
    unfold putChildIndex
    rw [load_eq hv, ok_bind, if_neg hnot, if_neg hlen]

theorem putChildKey_slot (hZ : RepCtx t above s Z i) (hwfZ : Z.Wf 32)
    (hv : s.mem (up t Z) = some v) (hpre : key / 2 ^ Z.depth 32 = Z.pre)
    (n : ℕ) : putChildKey s (up t Z) key n =
      .ok (s.store (up t Z) { v with tnode := Function.update v.tnode (slot Z) n }) := by
  have hslot := (slot_spec hZ hwfZ hv hpre).1
  have hput := putChildIndex_slot hZ hwfZ hv n
  unfold putChildKey
  rw [load_eq hv, ok_bind]
  by_cases htrie : isTrie v = true
  · rw [if_pos htrie]
    unfold putChildIndex at hput
    rw [load_eq hv, ok_bind, if_pos htrie] at hput
    split_ifs at hput with h0
    rw [← hput, not_not.mp h0]
  · rw [if_neg htrie, hslot, hput]

theorem putChildIndex_tnode (hv : s.mem i = some v) (hpos : v.pos < 32) (hbits : v.bits = 1) {b : Bool}
    (n : ℕ) : putChildIndex s i b.toNat n =
      .ok (s.store i { v with tnode := Function.update v.tnode b.toNat n }) := by
  have hnot : ¬ isTrie v = true := by
    unfold isTrie B32T_KEYLENGTH
    rw [decide_eq_true_eq]
    omega
  have hlen : ¬ b.toNat ≥ childLength v := by
    have : b.toNat < 2 := Bool.toNat_lt b
    unfold childLength
    rw [hbits]
    omega
  unfold putChildIndex
  rw [load_eq hv, ok_bind, if_neg hnot, if_neg hlen]

theorem nodeInitParent_eq (hv : s.mem n = some v) (p : ℕ) :
    s.nodeInitParent n p = .ok (s.store n { v with parent := p }) := by
  unfold State.nodeInitParent
  rw [load_eq hv, ok_bind]

/-! ### The insertion -/

/-- What a new leaf is. -/
def leafNode (c : Chunks) (par key new : ℕ) : Node :=
  { c.leafJunk with
    parent := par, key := key, pos := 0, bits := 0, leaf := if new = 0 then [] else [new] }

theorem Fresh.notMem (hc : Fresh s c) {par : ℕ} (hC : Rep s par C) :
    c.l ∉ C.addresses ∧ c.tn ∉ C.addresses :=
  ⟨fun h => (hC.mem_ne_none _ h).1 hc.l, fun h => (hC.mem_ne_none _ h).1 hc.tn⟩

/-- **Into an empty slot.** -/
theorem insertNode_nil (hZ : RepCtx t above s Z 0) (hwfZ : Z.Wf 32)
    (hpre : key / 2 ^ Z.depth 32 = Z.pre) (hc : Fresh s c) (hv : s.mem (up t Z) = some v) (new : ℕ) :
    insertNode s c (up t Z) new key = .ok ((s.store c.l (leafNode c (up t Z) key new)).store (up t Z)
      { v with tnode := Function.update v.tnode (slot Z) c.l }) := by
  have hne : ∀ p ∈ t ::ₘ Z.addresses, p ≠ c.l := by
    rintro p hp rfl
    exact hZ.mem_ne_none _ hp hc.l
  have hup := hne _ (up_mem t Z)
  have hZ' : ∀ x, RepCtx t above (s.store c.l x) Z 0 := fun x =>
    hZ.congr fun p hp => mem_store_of_ne (hne p hp)
  have hv' : ∀ x, (s.store c.l x).mem (up t Z) = some v := fun x => by
    rw [mem_store_of_ne hup, hv]
  obtain ⟨w, hw, hslot⟩ := hZ.up_node
  obtain rfl : v = w := Option.some.inj (hv.symm.trans hw)
  unfold insertNode leafNew
  dsimp only
  rw [load_eq (hv' _), ok_bind, (slot_spec (hZ' v) hwfZ (hv' v) hpre).1, hslot,
    if_neg (not_not.mpr rfl), ok_bind]
  dsimp only
  rw [nodeInitParent_eq mem_store_self, ok_bind, store_store]
  exact putChildKey_slot (hZ' _) hwfZ (hv' _) hpre c.l

theorem stored_insert_nil (h : Stored t above s (Z.fill .nil))
    (hpre : key / 2 ^ Z.depth 32 = Z.pre) (hc : Fresh s c) (new : ℕ) :
    ∃ s', insertNode s c (up t Z) new key = .ok s' ∧ s'.outside = s.outside ∧
      Stored t above s' (Z.fill (.leaf c.l key)) := by
  obtain ⟨hZ, -⟩ := rep_fill.mp ⟨h.root, h.tree⟩
  obtain ⟨hwfZ, -⟩ := Ctx.wf_fill.mp h.wf
  obtain ⟨v, hv, -⟩ := hZ.up_node
  have hnd := h.nodup
  rw [Ctx.addresses_fill, PTree.addresses_nil, add_zero] at hnd
  have hne : ∀ p ∈ t ::ₘ Z.addresses, p ≠ c.l := by
    rintro p hp rfl
    exact hZ.mem_ne_none _ hp hc.l
  refine ⟨_, insertNode_nil hZ hwfZ hpre hc hv new, rfl, ?_⟩
  have hctx : RepCtx t above ((s.store c.l (leafNode c (up t Z) key new)).store (up t Z)
      { v with tnode := Function.update v.tnode (slot Z) c.l }) Z c.l := by
    refine hZ.write hnd hv mem_store_self fun p hp hpu => ?_
    rw [mem_store_of_ne hpu, mem_store_of_ne (hne p hp)]
  have hleaf : Rep ((s.store c.l (leafNode c (up t Z) key new)).store (up t Z)
      { v with tnode := Function.update v.tnode (slot Z) c.l }) (up t Z) (.leaf c.l key) := by
    refine ⟨hc.l_pos, leafNode c (up t Z) key new, ?_, rfl, rfl, rfl, rfl⟩
    rw [mem_store_of_ne (hne _ (up_mem t Z)).symm, mem_store_self]
  obtain ⟨hroot, htree⟩ := rep_fill.mpr ⟨hctx, hleaf⟩
  refine ⟨h.pos, hroot, htree, ?_, Ctx.wf_fill.mpr ⟨hwfZ, hpre⟩, ?_⟩
  · rw [Ctx.addresses_fill, PTree.addresses_leaf, ← Multiset.cons_add, add_comm,
      Multiset.singleton_add, Multiset.nodup_cons]
    exact ⟨fun hmem => hne _ hmem rfl, hnd⟩
  · have hleaf0 : PTree.leaf c.l key ≠ .nil := nofun
    exact (Ctx.full_fill hleaf0).mpr ⟨Ctx.Full.of_fill h.full, trivial⟩

/-- The new inner node, with a tree and the new leaf below it. -/
def splitNode (c : Chunks) (par key m n : ℕ) : Node :=
  { c.tnodeJunk with
    parent := par, key := key / 2 ^ (m + 1) * 2 ^ (m + 1), pos := m, bits := 1
    tnode := Function.update (Function.update c.tnodeJunk.tnode (!key.testBit m).toNat n)
      (key.testBit m).toNat c.l }

theorem tnodeNew_eq {tn m : ℕ} {junk : Node} (hm : m < 32) (hkey : key < 2 ^ 32) :
    tnodeNew s tn junk key m 1 = .ok (s.store tn
      { junk with key := key / 2 ^ (m + 1) * 2 ^ (m + 1), pos := m, bits := 1 }) := by
  have hshift : ¬ (1 = 0 ∨ m + 1 > B32T_KEYLENGTH) := by
    unfold B32T_KEYLENGTH
    omega
  have hk : (if m + 1 < B32T_KEYLENGTH then key / 2 ^ (m + 1) * 2 ^ (m + 1) else 0) =
      key / 2 ^ (m + 1) * 2 ^ (m + 1) := by
    by_cases hlt : m + 1 < B32T_KEYLENGTH
    · rw [if_pos hlt]
    · have h32 : m + 1 = 32 := by
        unfold B32T_KEYLENGTH at hlt
        omega
      rw [if_neg hlt, h32, Nat.div_eq_of_lt hkey, Nat.zero_mul]
  unfold tnodeNew
  dsimp only
  rw [if_neg hshift, hk]

theorem getIndex_split {m : ℕ} (hk : v.key = key / 2 ^ (m + 1) * 2 ^ (m + 1)) (hpos : v.pos = m) :
    getIndex key v = (key.testBit m).toNat := by
  unfold getIndex
  rw [hk, hpos]
  refine xor_shift_eq (Dvd.intro_left _ rfl) ?_
  rw [Nat.mul_div_cancel _ (by positivity)]

/-- **Next to a tree** that lacks the leading bits of the key: four nodes are written. -/
theorem insertNode_misses (hZ : RepCtx t above s Z (ptr C)) (hC : Rep s (up t Z) C) (hwfZ : Z.Wf 32)
    (hwf : C.Wf Z.pre (Z.depth 32)) (hmiss : C.Misses key)
    (hpre : key / 2 ^ Z.depth 32 = Z.pre) (hc : Fresh s c)
    (hnd : (t ::ₘ (Z.addresses + C.addresses)).Nodup) (new : ℕ) :
    ∃ s' v w m, insertNode s c (up t Z) new key = .ok s' ∧ s'.outside = s.outside ∧
      m = (key ^^^ C.key).log2 ∧ s.mem (up t Z) = some v ∧ s.mem (ptr C) = some w ∧
      s'.mem c.l = some (leafNode c c.tn key new) ∧
      s'.mem c.tn = some (splitNode c (up t Z) key m (ptr C)) ∧
      s'.mem (up t Z) = some { v with tnode := Function.update v.tnode (slot Z) c.tn } ∧
      s'.mem (ptr C) = some { w with parent := c.tn } ∧
      ∀ p, p ≠ c.l → p ≠ c.tn → p ≠ up t Z → p ≠ ptr C → s'.mem p = s.mem p := by
  have hCne : C ≠ .nil := by
    rintro rfl
    exact hmiss
  obtain ⟨hn0, hnC, w, hw, hwk, -⟩ := hC.top hCne
  obtain ⟨v, hv, hslot⟩ := hZ.up_node
  -- the four nodes are different
  have hupZ := up_mem t Z
  have hupl : up t Z ≠ c.l := fun heq => hZ.mem_ne_none _ hupZ (heq ▸ hc.l)
  have huptn : up t Z ≠ c.tn := fun heq => hZ.mem_ne_none _ hupZ (heq ▸ hc.tn)
  have hnl : ptr C ≠ c.l := fun heq => (hc.notMem hC).1 (heq ▸ hnC)
  have hntn : ptr C ≠ c.tn := fun heq => (hc.notMem hC).2 (heq ▸ hnC)
  have hnup : ptr C ≠ up t Z := by
    intro heq
    rw [← Multiset.cons_add, Multiset.nodup_add] at hnd
    exact Multiset.disjoint_left.mp hnd.2.2 hupZ (heq ▸ hnC)
  have hltn := hc.ne
  have hkey : key < 2 ^ 32 := hwfZ.lt_two_pow hpre
  -- the highest bit where the keys differ
  have hkk : key ≠ C.key := hmiss.ne_key
  have hm : (key ^^^ C.key).log2 < 32 := by
    have hCk : C.key / 2 ^ Z.depth 32 = Z.pre := by
      cases C with
      | nil => exact hmiss.elim
      | leaf p y => exact hwf
      | node p k pos a b => exact hwf.2.2.1
    exact (log2_xor_lt hkk (hpre.trans hCk.symm)).trans_le (depth_le hwfZ)
  have hfls : fls (key ^^^ w.key) = .ok (key ^^^ C.key).log2 := by
    unfold fls
    rw [hwk, if_neg fun h => hkk (Nat.xor_eq_zero_iff.mp h)]
  generalize (key ^^^ C.key).log2 = m at hm hfls
  have hidx : ∀ b : Bool, b.toNat ^^^ 1 = (!b).toNat := by decide
  have hv1 : ∀ x, (s.store c.l x).mem (up t Z) = some v := fun x => by
    rw [mem_store_of_ne hupl, hv]
  have hZ1 : ∀ x, RepCtx t above (s.store c.l x) Z (ptr C) := fun x => hZ.congr fun p hp =>
    mem_store_of_ne fun heq => hZ.mem_ne_none _ hp (heq ▸ hc.l)
  have hw1 : ∀ x, (s.store c.l x).mem (ptr C) = some w := fun x => by
    rw [mem_store_of_ne hnl, hw]
  unfold insertNode leafNew
  dsimp only
  rw [load_eq (hv1 _), ok_bind, (slot_spec (hZ1 v) hwfZ (hv1 v) hpre).1, hslot, if_pos hn0,
    load_eq (hw1 _), ok_bind, hfls, ok_bind, tnodeNew_eq hm hkey, ok_bind,
    nodeInitParent_eq mem_store_self, ok_bind, load_eq mem_store_self, ok_bind,
    getIndex_split rfl rfl, hidx, putChildIndex_tnode mem_store_self hm rfl, ok_bind]
  rw [store_store, store_store]
  dsimp only
  -- the memory when the new inner node has its first child
  obtain ⟨x, hx⟩ : ∃ x, x = ({ c.tnodeJunk with
    parent := up t Z, key := key / 2 ^ (m + 1) * 2 ^ (m + 1), pos := m, bits := 1
    tnode := Function.update c.tnodeJunk.tnode (!key.testBit m).toNat (ptr C) } : Node) := ⟨_, rfl⟩
  obtain ⟨y, hy⟩ : ∃ y, y = ({ c.leafJunk with
    key := key, pos := 0, bits := 0, leaf := if new = 0 then [] else [new] } : Node) := ⟨_, rfl⟩
  rw [← hx, ← hy]
  have hZ2 : RepCtx t above ((s.store c.l y).store c.tn x) Z (ptr C) := (hZ1 y).congr fun p hp =>
    mem_store_of_ne fun heq => hZ.mem_ne_none _ hp (heq ▸ hc.tn)
  have hv2 : ((s.store c.l y).store c.tn x).mem (up t Z) = some v := by
    rw [mem_store_of_ne huptn, hv1]
  rw [putChildKey_slot hZ2 hwfZ hv2 hpre, ok_bind]
  unfold State.nodeSetParent
  rw [if_neg hn0]
  -- the tree goes below it, and the leaf next to the tree
  have hw3 : ∀ z, (((s.store c.l y).store c.tn x).store (up t Z) z).mem (ptr C) = some w := fun z => by
    rw [mem_store_of_ne hnup, mem_store_of_ne hntn, hw1]
  rw [nodeInitParent_eq (hw3 _), ok_bind, ok_bind]
  dsimp only
  have hl4 : ∀ z z', ((((s.store c.l y).store c.tn x).store (up t Z) z).store (ptr C) z').mem c.l =
      some y := fun z z' => by
    rw [mem_store_of_ne hnl.symm, mem_store_of_ne hupl.symm, mem_store_of_ne hltn, mem_store_self]
  rw [nodeInitParent_eq (hl4 _ _), ok_bind]
  have hx5 : ∀ z z' z'', (((((s.store c.l y).store c.tn x).store (up t Z) z).store (ptr C) z').store
      c.l z'').mem c.tn = some x := fun z z' z'' => by
    rw [mem_store_of_ne hltn.symm, mem_store_of_ne hntn.symm, mem_store_of_ne huptn.symm, mem_store_self]
  have hnot : ¬ isTrie x = true := by
    unfold isTrie B32T_KEYLENGTH
    rw [decide_eq_true_eq, hx]
    exact not_le.mpr hm
  unfold putChildKey
  rw [load_eq (hx5 _ _ _), ok_bind, if_neg hnot, getIndex_split (by rw [hx]) (by rw [hx]),
    putChildIndex_tnode (hx5 _ _ _) (by rw [hx]; exact hm) (by rw [hx])]
  refine ⟨_, v, w, m, rfl, rfl, rfl, hv, hw, ?_, ?_, ?_, ?_, fun p h1 h2 h3 h4 => ?_⟩
  · rw [mem_store_of_ne hltn, mem_store_self, hy]
    rfl
  · rw [mem_store_self, hx]
    rfl
  · rw [mem_store_of_ne huptn, mem_store_of_ne hupl, mem_store_of_ne hnup.symm, mem_store_self]
  · rw [mem_store_of_ne hntn, mem_store_of_ne hnl, mem_store_self]
  · rw [mem_store_of_ne h2, mem_store_of_ne h1, mem_store_of_ne h4, mem_store_of_ne h3,
      mem_store_of_ne h2, mem_store_of_ne h1]

theorem stored_insert_misses (h : Stored t above s (Z.fill C)) (hmiss : C.Misses key)
    (hpre : key / 2 ^ Z.depth 32 = Z.pre) (hc : Fresh s c) (new : ℕ) :
    ∃ s', insertNode s c (up t Z) new key = .ok s' ∧ s'.outside = s.outside ∧
      Stored t above s' (Z.fill (C.split c.l c.tn key)) := by
  obtain ⟨hZ, hC⟩ := rep_fill.mp ⟨h.root, h.tree⟩
  obtain ⟨hwfZ, hwf⟩ := Ctx.wf_fill.mp h.wf
  have hnd := h.nodup
  rw [Ctx.addresses_fill] at hnd
  have hCne : C ≠ .nil := by
    rintro rfl
    exact hmiss
  obtain ⟨s', v, w, m, hs', hout, hm, hv, hw, hl, htn, hup, hptr, hother⟩ :=
    insertNode_misses hZ hC hwfZ hwf hmiss hpre hc hnd new
  have hnd' := hnd
  rw [← Multiset.cons_add, Multiset.nodup_add] at hnd'
  obtain ⟨hndZ, hndC, hdisj⟩ := hnd'
  rw [Multiset.disjoint_left] at hdisj
  have hlZ : c.l ∉ t ::ₘ Z.addresses := fun hmem => hZ.mem_ne_none _ hmem hc.l
  have htnZ : c.tn ∉ t ::ₘ Z.addresses := fun hmem => hZ.mem_ne_none _ hmem hc.tn
  obtain ⟨hlC, htnC⟩ := hc.notMem hC
  obtain ⟨hn0, hnC, -⟩ := hC.top hCne
  have hctx : RepCtx t above s' Z c.tn := by
    refine hZ.write hndZ hv hup fun p hp hpu => hother p ?_ ?_ hpu ?_
    · exact fun heq => hlZ (heq ▸ hp)
    · exact fun heq => htnZ (heq ▸ hp)
    · exact fun heq => hdisj hp (heq ▸ hnC)
  have hC' : Rep s' c.tn C := by
    refine hC.reparent hCne hndC hw hptr fun p hp hpn => hother p ?_ ?_ ?_ hpn
    · exact fun heq => hlC (heq ▸ hp)
    · exact fun heq => htnC (heq ▸ hp)
    · exact fun heq => hdisj (heq ▸ up_mem t Z) hp
  have hnode : IsTnode s' (up t Z) c.tn (key / 2 ^ (m + 1) * 2 ^ (m + 1)) m (key.testBit m) c.l
      (ptr C) := by
    refine ⟨hc.tn_pos, _, htn, rfl, rfl, rfl, rfl, Function.update_self _ _ _, ?_⟩
    show Function.update _ _ _ _ = _
    rw [Function.update_of_ne (toNat_ne_not _), Function.update_self]
  have hsplit : Rep s' (up t Z) (C.split c.l c.tn key) := by
    unfold PTree.split
    rw [← hm]
    exact rep_mk.mpr ⟨hnode, ⟨hc.l_pos, _, hl, rfl, rfl, rfl, rfl⟩, hC'⟩
  have hptr' : ptr (C.split c.l c.tn key) = c.tn := ptr_mk
  obtain ⟨hroot, htree⟩ := rep_fill.mpr ⟨hptr' ▸ hctx, hsplit⟩
  have hsplit0 : C.split c.l c.tn key ≠ .nil := PTree.mk_ne_nil
  have hfull := (Ctx.full_fill hCne).mp h.full
  refine ⟨s', hs', hout, h.pos, hroot, htree, ?_, Ctx.wf_fill.mpr ⟨hwfZ, hwf.split hmiss hpre⟩,
    (Ctx.full_fill hsplit0).mpr ⟨hfull.1, hfull.2.split⟩⟩
  have haddr : (C.split c.l c.tn key).addresses = c.tn ::ₘ c.l ::ₘ C.addresses := by
    unfold PTree.split
    rw [PTree.addresses_mk, PTree.addresses_leaf, Multiset.singleton_add]
  rw [Ctx.addresses_fill, haddr, ← Multiset.cons_add, Multiset.add_cons, Multiset.add_cons,
    Multiset.cons_add]
  refine Multiset.nodup_cons.mpr ⟨?_, Multiset.nodup_cons.mpr ⟨?_, hnd⟩⟩
  · rw [Multiset.mem_cons, ← Multiset.cons_add, Multiset.mem_add]
    rintro (heq | hmem | hmem)
    · exact hc.ne heq.symm
    · exact htnZ hmem
    · exact htnC hmem
  · rw [← Multiset.cons_add, Multiset.mem_add]
    rintro (hmem | hmem)
    · exact hlZ hmem
    · exact hlC hmem

/-- **`b32t_leaf_insert`** of a key that is not there. -/
theorem leafInsert_spec {fuel : ℕ} (h : Stored t above s T) (hkey : key < 2 ^ 32) (hfuel : 32 < fuel)
    (hnew : key ∉ T.keys) (hc : Fresh s c) (new : ℕ) :
    ∃ s' T', leafInsert fuel t s c key new = .ok s' ∧ s'.outside = s.outside ∧
      Stored t above s' T' ∧ T'.keys = insert key T.keys := by
  obtain ⟨⟨Z, C, ⟨rfl, hpre, hends⟩, hfind⟩, -⟩ := find_spec h hkey hfuel false
  obtain ⟨hwfZ, hwf⟩ := Ctx.wf_fill.mp h.wf
  unfold leafInsert
  rw [hfind, ok_bind]
  obtain rfl | hmiss | ⟨p, rfl⟩ := hends
  · obtain ⟨s', hs', hout, hst⟩ := stored_insert_nil h hpre hc new
    refine ⟨s', _, hs', hout, hst, ?_⟩
    rw [Ctx.keys_fill, Ctx.keys_fill, PTree.keys_nil, Finset.union_empty, PTree.keys_leaf,
      Finset.union_comm, Finset.insert_eq]
  · obtain ⟨s', hs', hout, hst⟩ := stored_insert_misses h hmiss hpre hc new
    refine ⟨s', _, hs', hout, hst, ?_⟩
    rw [Ctx.keys_fill, Ctx.keys_fill, PTree.keys_split, Finset.union_insert]
  · refine absurd ?_ hnew
    rw [hwfZ.mem_fill hpre]
    exact Finset.mem_singleton_self key

/-- A key that is there makes the new inner node one for keys that do not differ. -/
theorem leafInsert_mem {fuel : ℕ} (h : Stored t above s T) (hkey : key < 2 ^ 32) (hfuel : 32 < fuel)
    (hmem : key ∈ T.keys) (hc : Fresh s c) (new : ℕ) : leafInsert fuel t s c key new = .error .fls := by
  obtain ⟨⟨Z, C, ⟨rfl, hpre, hends⟩, hfind⟩, -⟩ := find_spec h hkey hfuel false
  obtain ⟨hwfZ, hwf⟩ := Ctx.wf_fill.mp h.wf
  obtain ⟨hZ, hC⟩ := rep_fill.mp ⟨h.root, h.tree⟩
  rw [hwfZ.mem_fill hpre] at hmem
  obtain ⟨p, rfl⟩ : ∃ p, C = .leaf p key := by
    obtain rfl | hmiss | hleaf := hends
    · exact absurd hmem (Finset.notMem_empty key)
    · exact absurd hmem (hmiss.notMem hwf)
    · exact hleaf
  obtain ⟨hp0, w, hw, -, hwk, -⟩ := id hC
  obtain ⟨v, hv, hslot⟩ := hZ.up_node
  have hpl : p ≠ c.l := fun heq => (hc.notMem hC).1 (Multiset.mem_singleton.mpr heq.symm)
  have hupl : up t Z ≠ c.l := fun heq => hZ.mem_ne_none _ (up_mem t Z) (heq ▸ hc.l)
  have hv1 : ∀ x, (s.store c.l x).mem (up t Z) = some v := fun x => by
    rw [mem_store_of_ne hupl, hv]
  have hw1 : ∀ x, (s.store c.l x).mem p = some w := fun x => by
    rw [mem_store_of_ne hpl, hw]
  have hfls : fls (key ^^^ w.key) = .error .fls := by
    rw [hwk, Nat.xor_self]
    rfl
  unfold leafInsert
  rw [hfind, ok_bind]
  unfold insertNode leafNew
  dsimp only
  rw [load_eq (hv1 _), ok_bind, (slot_spec hZ hwfZ hv hpre).1, hslot, ptr, if_pos hp0,
    load_eq (hw1 _), ok_bind, hfls]
  rfl

end HardStack.LcTrie.Insert
