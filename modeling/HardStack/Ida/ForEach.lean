import HardStack.Ida.Iterate

/-! # The iteration over a reachable tree

A tree of insertions and deletions is one that the iteration can walk, and its items are those of the map
that the calls stand for. -/

namespace HardStack.Ida.ForEach

open HardStack.Lib HardStack.Lib.Trie HardStack.Radix.Model HardStack.Radix.Layout HardStack.Radix.Run
open HardStack.Ida.Model HardStack.Ida.Iterate

variable {W : ℕ} {s : Tree} {pre : ℕ → ℕ}

/-- The items are the content: the counts of the nodes say nothing about them. -/
theorem item_iff {i a : ℕ} : Item s pre i a ↔ Has s pre i a := Iff.rfl

theorem walkable (h : Inv W s pre) : Walkable W s pre where
  wf :=
    { root_node := h.wf.root_node
      top := h.wf.top
      up := h.wf.up
      down := h.wf.down
      leaf := h.wf.leaf
      dvd := h.wf.dvd
      count := fun _ _ => rfl }
  addr := h.addr
  shift := h.shift
  start := h.start

/-- The items of the map from an index on. -/
theorem sysInv_forEachSlot (hW : 7 < W) {x : System} (h : SysInv W x) {past : ℕ → ℕ → ℕ} {fuel start : ℕ}
    (hf : chunkFuel W ≤ fuel) (hstart : start < 2 ^ W) (tags node : ℕ) :
    ∃ l, radixTreeForEachSlot W past none fuel x.tree start tags node = some (l, true) ∧
      Enumerates (fun i a => x.map i = a ∧ a ≠ 0) start l := by
  obtain ⟨pre, hinv, hmap⟩ := h
  have hready : Ready W x.tree pre start ⟨0, start, tags, node⟩ none :=
    .chunk (.word rfl hstart fun _ => rfl) le_rfl fun j a h1 h2 => absurd h2 (Nat.not_lt.mpr h1)
  have hfuel : 2 ^ W < chunkFuel W := by
    have hpow : 0 < 2 ^ W := by positivity
    unfold chunkFuel
    nlinarith
  obtain ⟨l, hl, hlist⟩ := @forEachSlotLoop_spec _ _ _ past (walkable hinv) hW _ hf fuel start _ _ hready
    (by omega)
  exact ⟨l, hl, hlist.sorted, fun i a => (hlist.mem i a).trans (and_congr_right fun _ =>
    item_iff.trans (hmap i a))⟩

/-- **`radix_tree_for_each_slot`** over a tree of any insertions and deletions ends, never reads past the
slots of a node, and visits the present items from the start on, each once and in order. -/
theorem reachable_forEachSlot (hW : W = 32 ∨ W = 64) {mask : ℕ} {mem : ℕ → Node}
    (hmask : mask < 2 ^ ROOT_TAG_SHIFT) (hidr : ¬ (radixTreeInit mask mem).isIdr) {x : System}
    (h : Relation.ReflTransGen (Step W) ⟨radixTreeInit mask mem, fun _ => 0⟩ x) {past : ℕ → ℕ → ℕ}
    {fuel start : ℕ} (hf : chunkFuel W ≤ fuel) (hstart : start < 2 ^ W) (tags node : ℕ) :
    ∃ l, radixTreeForEachSlot W past none fuel x.tree start tags node = some (l, true) ∧
      (l.Pairwise fun p q => p.1 < q.1) ∧
      ∀ i a, (i, a) ∈ l ↔ start ≤ i ∧ x.map i = a ∧ a ≠ 0 := by
  have hinv : SysInv W x := Lib.Run.invariant (I := SysInv W) (init_sysInv hmask hidr)
    (fun _ _ => step_sysInv (by omega)) h
  obtain ⟨l, hl, hlist⟩ := @sysInv_forEachSlot _ (by omega) _ hinv past _ _ hf hstart tags node
  exact ⟨l, hl, hlist.sorted, hlist.mem⟩

/-- The item at the last index is visited. -/
theorem reachable_forEachSlot_last : ∃ s l,
    radixTreeForEachSlot 64 (fun _ _ => 0) none (chunkFuel 64) s 7 0 0 = some (l, true) ∧
      (2 ^ 64 - 1, 8) ∈ l := by
  have hinit : SysInv 64 ⟨radixTreeInit 0 fun _ => ⟨0, 0, 0, 0, 0, fun _ => 0, fun _ _ => 0⟩, fun _ => 0⟩ :=
    init_sysInv (by decide) (by decide)
  obtain ⟨s, -, hstep⟩ := ((hinit.isMap (by decide)).insert nextFree malloc_nextFree (2 ^ 64 - 1) (by decide)
    8 (by decide) (by decide) 134 le_rfl).1 rfl
  obtain ⟨l, hl, -, hmem⟩ := @reachable_forEachSlot 64 (Or.inr rfl) 0
    (fun _ => ⟨0, 0, 0, 0, 0, fun _ => 0, fun _ _ => 0⟩) (by decide) (by decide) _ (.single hstep)
    (fun _ _ => 0) (chunkFuel 64) 7 le_rfl (by decide) 0 0
  exact ⟨s, l, hl, (hmem _ _).mpr ⟨by decide, by simp, by decide⟩⟩

end HardStack.Ida.ForEach
