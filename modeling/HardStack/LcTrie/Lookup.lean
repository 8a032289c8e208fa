import HardStack.LcTrie.Layout

/-! # The search for a key

Both loops go down the tree along the bits of the key and stop at the same place: at an empty slot, at
a leaf, or at a node whose leading bits the key does not have. -/

namespace HardStack.LcTrie.Lookup

open HardStack.Lib.Patricia HardStack.LcTrie.Model HardStack.LcTrie.Layout

variable {s s' : State} {t above key fuel : ℕ} {C T : PTree ℕ} {Z : Ctx ℕ} {v : Node}

/-- The leaf with the key. -/
def hit (key : ℕ) : PTree ℕ → ℕ
  | .leaf p x => if x = key then p else 0
  | _ => 0

theorem hit_misses (h : C.Misses key) : hit key C = 0 := by
  cases C with
  | leaf p x => exact if_neg fun heq => h heq.symm
  | _ => rfl

theorem hit_ne_zero (hrep : Rep s t C) (hwf : C.Wf Z.pre (Z.depth 32)) (hends : C.Ends key) :
    hit key C ≠ 0 ↔ key ∈ C.keys := by
  obtain rfl | hmiss | ⟨p, rfl⟩ := hends
  · exact iff_of_false (fun h => h rfl) (Finset.notMem_empty key)
  · rw [hit_misses hmiss]
    exact iff_of_false (fun h => h rfl) (hmiss.notMem hwf)
  · rw [hit, if_pos rfl]
    exact iff_of_true hrep.1 (Finset.mem_singleton_self key)

/-- **The place of a key** in the tree. -/
structure Place (key : ℕ) (T : PTree ℕ) (Z : Ctx ℕ) (C : PTree ℕ) : Prop where
  fill : Z.fill C = T
  pre : key / 2 ^ Z.depth 32 = Z.pre
  ends : C.Ends key

/-! ### The index in a node -/

theorem getCindex_leaf (hkey : key < 2 ^ 32) (hv : v.key < 2 ^ 32) (hpos : v.pos = 0) :
    getCindex key v ≥ 1 ↔ key ≠ v.key := by
  unfold getCindex
  rw [Nat.mod_eq_of_lt (Nat.xor_lt_two_pow hkey hv), hpos, pow_zero, Nat.div_one,
    ge_iff_le, Nat.one_le_iff_ne_zero]
  exact not_congr Nat.xor_eq_zero_iff

theorem getCindex_lt_two (hkey : key < 2 ^ 32) (hv : v.key < 2 ^ 32) :
    getCindex key v < 2 ↔ key / 2 ^ (v.pos + 1) = v.key / 2 ^ (v.pos + 1) := by
  unfold getCindex
  rw [Nat.mod_eq_of_lt (Nat.xor_lt_two_pow hkey hv)]
  exact xor_shift_lt_two

theorem getCindex_eq (hkey : key < 2 ^ 32) (hv : v.key < 2 ^ 32) (hdvd : 2 ^ (v.pos + 1) ∣ v.key)
    (h : key / 2 ^ (v.pos + 1) = v.key / 2 ^ (v.pos + 1)) :
    getCindex key v = (key.testBit v.pos).toNat := by
  unfold getCindex
  rw [Nat.mod_eq_of_lt (Nat.xor_lt_two_pow hkey hv)]
  exact xor_shift_eq hdvd h

theorem depth_le (hZ : Z.Wf 32) : Z.depth 32 ≤ 32 := by
  have := hZ.length_add_depth_le
  omega

/-! ### One step down -/

/-- **A step down the tree** at a node that has the leading bits of the key. -/
theorem step_down {i : Bool} {p k pos : ℕ} {a b : PTree ℕ} (hZ : RepCtx t above s Z p)
    (hC : Rep s (up t Z) (.mk i p k pos a b)) (hwfZ : Z.Wf 32)
    (hwf : (PTree.mk i p k pos a b).Wf Z.pre (Z.depth 32)) (hi : i = key.testBit pos)
    (hup : key / 2 ^ (pos + 1) = k / 2 ^ (pos + 1)) :
    RepCtx t above s (⟨p, k, pos, i, b⟩ :: Z) (ptr a) ∧ Rep s p a ∧
      Ctx.Wf 32 (⟨p, k, pos, i, b⟩ :: Z) ∧
      a.Wf (Ctx.pre (⟨p, k, pos, i, b⟩ :: Z)) pos ∧
      key / 2 ^ pos = Ctx.pre (⟨p, k, pos, i, b⟩ :: Z) := by
  obtain ⟨hnode, ha, hb⟩ := rep_mk.mp hC
  obtain ⟨hpos, hdvd, hk, hwa, hwb⟩ := PTree.wf_mk.mp hwf
  refine ⟨⟨hnode, hb, hZ⟩, ha, ⟨hpos, hdvd, hk, hwb, hwfZ⟩, hwa, ?_⟩
  rw [div_two_pow_eq, hup, ← hi]
  rfl

/-- **The loop of `b32t_find_node`.** -/
theorem findNodeLoop_spec (hkey : key < 2 ^ 32) : ∀ {fuel : ℕ} {Z : Ctx ℕ} {C : PTree ℕ},
    RepCtx t above s Z (ptr C) → Rep s (up t Z) C → Z.Wf 32 → C.Wf Z.pre (Z.depth 32) →
    key / 2 ^ Z.depth 32 = Z.pre → Z.depth 32 < fuel → ∃ Z' C', Place key (Z.fill C) Z' C' ∧
      findNodeLoop s key fuel (up t Z) (slot Z) = .ok (hit key C', up t Z')
  | 0, _, _, _, _, _, _, _, hfuel => absurd hfuel (Nat.not_lt_zero _)
  | fuel + 1, Z, C, hZ, hC, hwfZ, hwf, hpre, hfuel => by
    obtain ⟨v, hv, hslot⟩ := hZ.up_node
    rw [findNodeLoop, load_eq hv, ok_bind]
    dsimp only
    rw [hslot]
    cases C with
    | nil => exact ⟨Z, .nil, ⟨rfl, hpre, Or.inl rfl⟩, if_pos rfl⟩
    | leaf p x =>
      obtain ⟨h0, w, hw, -, hwk, hwp, hwb⟩ := hC
      have hx : w.key < 2 ^ 32 := hwk ▸ hwfZ.lt_two_pow hwf
      rw [ptr, if_neg h0, load_eq hw, ok_bind]
      rw [hwb, pow_zero]
      by_cases hxk : key = x
      · have hidx : ¬ getCindex key w ≥ 1 := by
          rw [getCindex_leaf hkey hx hwp, hwk]
          exact not_not.mpr hxk
        refine ⟨Z, .leaf p x, ⟨rfl, hpre, Or.inr (Or.inr ⟨p, by rw [hxk]⟩)⟩, ?_⟩
        rw [if_neg hidx, if_neg (not_not.mpr rfl), hit, if_pos hxk.symm]
      · have hidx : getCindex key w ≥ 1 := by
          rw [getCindex_leaf hkey hx hwp, hwk]
          exact hxk
        refine ⟨Z, .leaf p x, ⟨rfl, hpre, Or.inr (Or.inl hxk)⟩, ?_⟩
        rw [if_pos hidx, hit, if_neg fun h => hxk h.symm]
    | node p k pos l r =>
      obtain ⟨⟨h0, w, hw, -, hwk, hwp, hwb, -⟩, -, -⟩ := id hC
      obtain ⟨hpos, hdvd, hk, -⟩ := id hwf
      have hx : w.key < 2 ^ 32 := hwk ▸ hwfZ.lt_two_pow hk
      have hlt := getCindex_lt_two hkey hx
      rw [hwp, hwk] at hlt
      rw [ptr, if_neg h0, load_eq hw, ok_bind]
      rw [hwb, pow_one]
      by_cases hup : key / 2 ^ (pos + 1) = k / 2 ^ (pos + 1)
      · have hidx : getCindex key w = (key.testBit pos).toNat := by
          rw [getCindex_eq hkey hx (by rw [hwp, hwk]; exact hdvd) (by rw [hwp, hwk]; exact hup), hwp]
        rw [if_neg (by rw [ge_iff_le, not_le]; exact hlt.mpr hup), if_pos (by decide), hidx]
        rw [PTree.node_eq_mk (key.testBit pos)] at hZ hC hwf ⊢
        rw [ptr_mk] at hZ
        obtain ⟨hZ', hC', hwfZ', hwf', hpre'⟩ := step_down hZ hC hwfZ hwf rfl hup
        exact findNodeLoop_spec hkey hZ' hC' hwfZ' hwf' hpre'
          (show pos < fuel by omega)
      · refine ⟨Z, .node p k pos l r, ⟨rfl, hpre, Or.inr (Or.inl hup)⟩, ?_⟩
        rw [if_pos (by rw [ge_iff_le, ← not_lt]; exact fun h => hup (hlt.mp h))]
        rfl

/-- What `b32t_find_leaf` returns at a place. -/
def leafAt (t key : ℕ) (remove : Bool) (s : State) (Z : Ctx ℕ) (C : PTree ℕ) :
    Except Fault (State × ℕ) :=
  if remove ∧ hit key C ≠ 0 then do
    let s ← putChildIndex s (up t Z) (slot Z) 0
    .ok (s, hit key C)
  else .ok (s, hit key C)

theorem leafAt_zero {remove : Bool} (h : hit key C = 0) : leafAt t key remove s Z C = .ok (s, 0) := by
  unfold leafAt
  rw [h, if_neg fun hr => hr.2 rfl]

/-- **The loop of `b32t_find_leaf`** from an inner node on. -/
theorem findLeafLoop_spec (remove : Bool) (hkey : key < 2 ^ 32) : ∀ {fuel : ℕ} {Z : Ctx ℕ}
    {p k pos : ℕ} {l r : PTree ℕ}, RepCtx t above s Z p →
    Rep s (up t Z) (.node p k pos l r) → Z.Wf 32 →
    (PTree.node p k pos l r).Wf Z.pre (Z.depth 32) → key / 2 ^ Z.depth 32 = Z.pre → pos < fuel →
    ∃ Z' C', Place key (Z.fill (.node p k pos l r)) Z' C' ∧
      findLeafLoop key remove fuel s p = leafAt t key remove s Z' C'
  | 0, _, _, _, _, _, _, _, _, _, _, _, hfuel => absurd hfuel (Nat.not_lt_zero _)
  | fuel + 1, Z, p, k, pos, l, r, hZ, hC, hwfZ, hwf, hpre, hfuel => by
    obtain ⟨⟨h0, w, hw, -, hwk, hwp, hwb, -⟩, -, -⟩ := id hC
    obtain ⟨hpos, hdvd, hk, -⟩ := id hwf
    have hx : w.key < 2 ^ 32 := hwk ▸ hwfZ.lt_two_pow hk
    have hlt := getCindex_lt_two hkey hx
    rw [hwp, hwk] at hlt
    rw [findLeafLoop, load_eq hw, ok_bind]
    dsimp only
    rw [hwb, pow_one]
    by_cases hup : key / 2 ^ (pos + 1) = k / 2 ^ (pos + 1)
    · have hidx : getCindex key w = (key.testBit pos).toNat := by
        rw [getCindex_eq hkey hx (by rw [hwp, hwk]; exact hdvd) (by rw [hwp, hwk]; exact hup), hwp]
      rw [if_neg (by rw [ge_iff_le, not_le]; exact hlt.mpr hup), hidx]
      rw [PTree.node_eq_mk (key.testBit pos)] at hC hwf ⊢
      generalize (PTree.node p k pos l r).child (key.testBit pos) = a at hC hwf ⊢
      generalize (PTree.node p k pos l r).child (!key.testBit pos) = b at hC hwf ⊢
      obtain ⟨hZ', hC', hwfZ', hwf', hpre'⟩ := step_down hZ hC hwfZ hwf rfl hup
      obtain ⟨⟨-, w', hw', -, -, -, -, hslot, -⟩, -, -⟩ := id hZ'
      obtain rfl : w = w' := Option.some.inj (hw.symm.trans hw')
      rw [hslot]
      cases a with
      | nil => exact ⟨⟨p, k, pos, _, b⟩ :: Z, .nil, ⟨rfl, hpre', Or.inl rfl⟩, (if_pos rfl).trans (leafAt_zero rfl).symm⟩
      | leaf q x =>
        obtain ⟨hq0, u, hu, -, huk, -, hub⟩ := id hC'
        rw [ptr, if_neg hq0, load_eq hu, ok_bind, if_pos hub, huk]
        by_cases hxk : x = key
        · refine ⟨⟨p, k, pos, _, b⟩ :: Z, .leaf q x, ⟨rfl, hpre', Or.inr (Or.inr ⟨q, by rw [hxk]⟩)⟩, ?_⟩
          have hhit : hit key (.leaf q x) = q := if_pos hxk
          unfold leafAt
          rw [if_pos hxk, hhit]
          simp only [hq0, ne_eq, not_false_eq_true, and_true]
          rfl
        · have hhit : hit key (.leaf q x) = 0 := if_neg hxk
          refine ⟨⟨p, k, pos, _, b⟩ :: Z, .leaf q x,
            ⟨rfl, hpre', Or.inr (Or.inl fun h => hxk h.symm)⟩, ?_⟩
          rw [if_neg hxk, leafAt_zero hhit]
      | node q k' pos' l' r' =>
        obtain ⟨⟨hq0, u, hu, -, -, -, hub, -⟩, -, -⟩ := id hC'
        have hpos' : pos' < fuel := by
          have := hwf'.1
          omega
        rw [ptr, if_neg hq0, load_eq hu, ok_bind, if_neg (by rw [hub]; decide)]
        exact findLeafLoop_spec remove hkey hZ' hC' hwfZ' hwf' hpre' hpos'
    · refine ⟨Z, .node p k pos l r, ⟨rfl, hpre, Or.inr (Or.inl hup)⟩, ?_⟩
      rw [if_pos (by rw [ge_iff_le, ← not_lt]; exact fun h => hup (hlt.mp h)), leafAt_zero rfl]

theorem putChildIndex_root {v : Node} (hv : s.mem t = some v) (hpos : v.pos = 32) (n : ℕ) :
    putChildIndex s t 0 n = .ok (s.store t { v with tnode := Function.update v.tnode 0 n }) := by
  have htrie : isTrie v = true := by
    unfold isTrie
    rw [hpos]
    rfl
  unfold putChildIndex
  rw [load_eq hv, ok_bind, if_pos htrie, if_neg (not_not.mpr rfl)]

/-- **Both searches** end at the place of the key. -/
theorem find_spec (h : Stored t above s T) (hkey : key < 2 ^ 32) (hfuel : 32 < fuel) (remove : Bool) :
    (∃ Z C, Place key T Z C ∧ findNode fuel t s key = .ok (hit key C, up t Z)) ∧
    (∃ Z C, Place key T Z C ∧ findLeaf fuel t s key remove = leafAt t key remove s Z C) := by
  have hpre : key / 2 ^ Ctx.depth 32 ([] : Ctx ℕ) = Ctx.pre ([] : Ctx ℕ) := Nat.div_eq_of_lt hkey
  refine ⟨findNodeLoop_spec (Z := []) hkey h.root h.tree trivial h.wf hpre hfuel, ?_⟩
  obtain ⟨v, hv, -, -, hpos, -, hslot⟩ := h.root
  unfold findLeaf
  rw [load_eq hv, ok_bind]
  dsimp only
  rw [hslot]
  have htree := h.tree
  have hwf := h.wf
  cases T with
  | nil => exact ⟨[], .nil, ⟨rfl, hpre, Or.inl rfl⟩, (if_pos rfl).trans (leafAt_zero rfl).symm⟩
  | leaf q x =>
    obtain ⟨hq0, u, hu, -, huk, -, hub⟩ := htree
    rw [ptr, if_neg hq0, load_eq hu, ok_bind, if_pos hub, huk]
    by_cases hxk : x = key
    · refine ⟨[], .leaf q x, ⟨rfl, hpre, Or.inr (Or.inr ⟨q, by rw [hxk]⟩)⟩, ?_⟩
      have hhit : hit key (.leaf q x) = q := if_pos hxk
      unfold leafAt
      rw [if_pos hxk, hhit]
      simp only [hq0, ne_eq, not_false_eq_true, and_true]
      rw [show putChildIndex s (up t []) (slot []) 0 = _ from putChildIndex_root hv hpos 0]
      rfl
    · have hhit : hit key (.leaf q x) = 0 := if_neg hxk
      refine ⟨[], .leaf q x, ⟨rfl, hpre, Or.inr (Or.inl fun h => hxk h.symm)⟩, ?_⟩
      rw [if_neg hxk, leafAt_zero hhit]
  | node q k pos l r =>
    obtain ⟨⟨hq0, u, hu, -, -, -, hub, -⟩, -, -⟩ := id htree
    rw [ptr, if_neg hq0, load_eq hu, ok_bind, if_neg (by rw [hub]; decide)]
    exact findLeafLoop_spec (Z := []) remove hkey h.root htree trivial hwf hpre (hwf.1.trans hfuel)

end HardStack.LcTrie.Lookup
