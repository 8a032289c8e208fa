import HardStack.Ida.Layout

/-! # Setting and clearing a tag

`node_tag_set` and `node_tag_clear` go up from a slot and stop where the tag above is right already.
Only the link above the node whose tags changed last may be wrong on the way (`SummedBut`), and the
slots that hold no node keep their tags, so the content stays. -/

namespace HardStack.Ida.Tags

open HardStack.Lib.Trie HardStack.Lib.Word HardStack.Radix.Model HardStack.Ida.Model
open HardStack.Ida.Layout

variable {W : ℕ} {Q : ℕ → Bool → Prop} {s s' : Tree} {pre : ℕ → ℕ}

/-! ### One tag -/

theorem div_mod_eq {o y : ℕ} : (y / W = o / W ∧ y % W = o % W) ↔ y = o := by
  constructor
  · rintro ⟨h1, h2⟩
    rw [← Nat.div_add_mod y W, ← Nat.div_add_mod o W, h1, h2]
  · rintro rfl
    exact ⟨rfl, rfl⟩

theorem marks_tagSet (n o : ℕ) :
    marks W (tagSet W s n IDR_FREE o) = setMark (marks W s) n o true := by
  funext x y
  by_cases hx : x = n
  · subst hx
    by_cases hy : y = o
    · subst hy
      simp [marks, freeTag, tagSet, tagWord, Tree.setNode]
    · rw [setMark_ne _ fun h => hy h.2]
      have hne : ¬ (y / W = o / W ∧ y % W = o % W) := fun h => hy (div_mod_eq.mp h)
      unfold marks freeTag tagSet tagWord Tree.setNode
      simp only [Function.update_self]
      by_cases hw : y / W = o / W
      · rw [hw, Function.update_self, Nat.testBit_or, Nat.testBit_two_pow_of_ne
          fun h => hne ⟨hw, h.symm⟩, Bool.or_false]
      · rw [Function.update_of_ne hw]
  · rw [setMark_ne _ fun h => hx h.1]
    simp [marks, tagSet, tagWord, Tree.setNode, hx]

theorem marks_tagClear (hW : 0 < W) (n o : ℕ) :
    marks W (tagClear W s n IDR_FREE o) = setMark (marks W s) n o false := by
  have hbit : ∀ i j, i < W → j < W → (notW W (2 ^ j)).testBit i = decide (i ≠ j) := by
    intro i j hi hj
    have hmask : notW W (2 ^ j) = 2 ^ W - (2 ^ j + 1) := by unfold notW; omega
    rw [hmask, Nat.testBit_two_pow_sub_succ (Nat.pow_lt_pow_right (by omega) hj)]
    by_cases hij : i = j
    · simp [hij]
    · simp [hi, hij, Nat.testBit_two_pow_of_ne (Ne.symm hij)]
  have hlt : ∀ i, i % W < W := fun i => Nat.mod_lt _ hW
  funext x y
  by_cases hx : x = n
  · subst hx
    by_cases hy : y = o
    · subst hy
      rw [setMark_self]
      simp [marks, freeTag, tagClear, tagWord, Tree.setNode, hbit _ _ (hlt y) (hlt y)]
    · rw [setMark_ne _ fun h => hy h.2]
      have hne : ¬ (y / W = o / W ∧ y % W = o % W) := fun h => hy (div_mod_eq.mp h)
      unfold marks freeTag tagClear tagWord Tree.setNode
      simp only [Function.update_self]
      by_cases hw : y / W = o / W
      · have hm : y % W ≠ o % W := fun h => hne ⟨hw, h⟩
        rw [hw, Function.update_self, Nat.testBit_and, hbit _ _ (hlt y) (hlt o)]
        simp [hm]
      · rw [Function.update_of_ne hw]
  · rw [setMark_ne _ fun h => hx h.1]
    simp [marks, tagClear, tagWord, Tree.setNode, hx]

/-- `any_tag_set`, with words that fit. -/
theorem anyTagSet_iff (hW : W = 32 ∨ W = 64) {n : ℕ}
    (hw : ∀ idx, (s.node n).tags IDR_FREE idx < 2 ^ W) :
    anyTagSet W s n IDR_FREE = true ↔ AnyMark 6 (marks W s) n := by
  have hl : RADIX_TREE_TAG_LONGS W * W = 64 := by rcases hW with rfl | rfl <;> rfl
  have hpos : 0 < W := by omega
  unfold anyTagSet AnyMark marks freeTag
  simp only [List.any_eq_true, List.mem_range, ne_eq, decide_eq_true_eq]
  constructor
  · rintro ⟨idx, hidx, h0⟩
    obtain ⟨i, hi⟩ := Nat.exists_testBit_of_ne_zero h0
    have hiW : i < W := by
      by_contra hle
      rw [Nat.testBit_lt_two_pow ((hw idx).trans_le
        (Nat.pow_le_pow_right (by omega) (by omega)))] at hi
      cases hi
    have hle : (idx + 1) * W ≤ RADIX_TREE_TAG_LONGS W * W := Nat.mul_le_mul_right W hidx
    refine ⟨idx * W + i, by rw [Nat.add_mul] at hle; omega, ?_⟩
    rw [Nat.mul_comm, Nat.mul_add_div hpos, Nat.div_eq_of_lt hiW, Nat.mul_add_mod,
      Nat.mod_eq_of_lt hiW, add_zero]
    exact hi
  · rintro ⟨o, ho, hbit⟩
    refine ⟨o / W, (Nat.div_lt_iff_lt_mul hpos).mpr (by omega), fun h0 => ?_⟩
    rw [h0, Nat.zero_testBit] at hbit
    cases hbit

/-! ### The tag of the root -/

theorem isIdr_iff : s.isIdr ↔ s.gfpMask.testBit 2 = true := by
  unfold Tree.isIdr
  rw [show (4 : ℕ) = 2 ^ 2 from rfl, Nat.and_two_pow]
  cases s.gfpMask.testBit 2 <;> simp

theorem rootTagGet_rootTagSet : (s.rootTagSet IDR_FREE).rootTagGet IDR_FREE = true := by
  simp [Tree.rootTagGet, Tree.rootTagSet]

theorem testBit_rootTagClear (i : ℕ) : (s.rootTagClear IDR_FREE).gfpMask.testBit i =
    (s.gfpMask.testBit i && (decide (i < 32) && decide (i ≠ 23))) := by
  have hmask : notW 32 (2 ^ (IDR_FREE + ROOT_TAG_SHIFT)) = 2 ^ 32 - (2 ^ 23 + 1) := rfl
  unfold Tree.rootTagClear
  dsimp only
  rw [Nat.testBit_and, hmask, Nat.testBit_two_pow_sub_succ (by decide)]
  by_cases hi : i = 23
  · rw [hi, Nat.testBit_two_pow_self]
    simp
  · simp [hi, Nat.testBit_two_pow_of_ne (Ne.symm hi)]

theorem rootTagGet_rootTagClear : (s.rootTagClear IDR_FREE).rootTagGet IDR_FREE = false := by
  unfold Tree.rootTagGet
  rw [testBit_rootTagClear]
  simp [IDR_FREE, ROOT_TAG_SHIFT]

/-! ### States that differ in tags -/

/-- `s'` differs from `s` in the tags of slots that hold nodes. -/
structure Retagged (W : ℕ) (s s' : Tree) : Prop where
  rnode : s'.rnode = s.rnode
  live : s'.live = s.live
  node : ∀ x, s'.node x = { s.node x with tags := (s'.node x).tags }
  tag : ∀ x o, ¬ isInternalNode ((s.node x).slots o) →
    freeTag W (s'.node x) o = freeTag W (s.node x) o
  root : ¬ isInternalNode s.rnode → s'.rootTagGet IDR_FREE = s.rootTagGet IDR_FREE
  words : ∀ x, (∀ tag idx, (s.node x).tags tag idx < 2 ^ W) →
    ∀ tag idx, (s'.node x).tags tag idx < 2 ^ W
  idr : s.isIdr → s'.isIdr
  mask : s.gfpMask < 2 ^ 32 → s'.gfpMask < 2 ^ 32

namespace Retagged

theorem refl (s : Tree) : Retagged W s s :=
  ⟨rfl, rfl, fun _ => rfl, fun _ _ _ => rfl, fun _ => rfl, fun _ h => h, id, id⟩

theorem slots (h : Retagged W s s') (x : ℕ) : (s'.node x).slots = (s.node x).slots := by rw [h.node x]

theorem shift (h : Retagged W s s') (x : ℕ) : (s'.node x).shift = (s.node x).shift := by rw [h.node x]

theorem count (h : Retagged W s s') (x : ℕ) : (s'.node x).count = (s.node x).count := by rw [h.node x]

theorem parent (h : Retagged W s s') (x : ℕ) : (s'.node x).parent = (s.node x).parent := by
  rw [h.node x]

theorem offset (h : Retagged W s s') (x : ℕ) : (s'.node x).offset = (s.node x).offset := by
  rw [h.node x]

theorem trans {t : Tree} (h : Retagged W s s') (h' : Retagged W s' t) : Retagged W s t where
  rnode := h'.rnode.trans h.rnode
  live := h'.live.trans h.live
  node x := by rw [h'.node x, h.node x]
  tag x o hs := (h'.tag x o (by rw [h.slots]; exact hs)).trans (h.tag x o hs)
  root hr := (h'.root (by rw [h.rnode]; exact hr)).trans (h.root hr)
  words x hw := h'.words x (h.words x hw)
  idr hi := h'.idr (h.idr hi)
  mask hm := h'.mask (h.mask hm)

/-- The slots mean the same. -/
theorem view_eq (h : Retagged W s s') (pre : ℕ → ℕ) : view W s' pre = view W s pre := by
  have hentry : ∀ (w : ℕ) (t t' : Bool), (¬ isInternalNode w → t' = t) →
      entryOf w t' = entryOf w t := by
    intro w t t' ht
    unfold entryOf
    split_ifs <;> simp_all
  ext x : 2
  · show entryOf s'.rnode _ = entryOf s.rnode _
    rw [h.rnode, hentry _ _ _ h.root]
  · show x ∈ s'.live ↔ x ∈ s.live
    rw [h.live]
  · show viewCell W (s'.node x) (pre x) = viewCell W (s.node x) (pre x)
    ext o
    · exact h.shift x
    · exact h.offset x
    · exact h.count x
    · simp only [viewCell, h.parent x]
    · simp only [viewCell, h.slots x, hentry _ _ _ (h.tag x o)]
    · rfl

theorem shape (h : Retagged W s s') (hs : Shape W Q s pre) : Shape W Q s' pre where
  wf := by rw [h.view_eq]; exact hs.wf
  addr := by rw [h.live]; exact hs.addr
  shift x hx := by rw [h.shift]; exact hs.shift x (h.live ▸ hx)
  words x hx := h.words x (hs.words x (h.live ▸ hx))
  idr := h.idr hs.idr
  mask := h.mask hs.mask
  slot n hn o ho hslot := by
    rw [h.slots] at hslot ⊢
    rw [h.tag n o hslot]
    exact hs.slot n (h.live ▸ hn) o ho hslot
  root hr := by
    rw [h.rnode] at hr ⊢
    rw [h.root hr]
    exact hs.root hr

theorem has (h : Retagged W s s') (i a : ℕ) : Has W s' pre i a ↔ Has W s pre i a := by
  unfold Has
  rw [h.view_eq]

theorem taken (h : Retagged W s s') (hs : Shape W Q s pre) (i : ℕ) :
    Taken W s' pre i ↔ Taken W s pre i := by
  unfold Taken
  rw [h.view_eq, h.rnode]
  refine or_congr ?_ (and_congr_right fun hr => by rw [h.root hr])
  refine exists_congr fun n => and_congr_right fun hn => and_congr_right fun hsh =>
    and_congr_right fun _ => ?_
  show freeTag W (s'.node n) _ = false ↔ freeTag W (s.node n) _ = false
  rw [h.tag n _ (hs.leaf_slot hn (show i % 2 ^ 6 < 64 from Nat.mod_lt _ (by omega)) hsh)]

end Retagged

/-- A tag word of one node is rewritten, at the bit of a slot that holds a node. -/
theorem retagged_tagWord {n o : ℕ} (hint : isInternalNode ((s.node n).slots o)) {f : ℕ → ℕ}
    (hf : ∀ w < 2 ^ W, f w < 2 ^ W)
    (htag : ∀ y, y ≠ o → freeTag W ((tagWord s n IDR_FREE (o / W) f).node n) y =
      freeTag W (s.node n) y) :
    Retagged W s (tagWord s n IDR_FREE (o / W) f) := by
  refine ⟨rfl, rfl, fun x => ?_, fun x y hy => ?_, fun _ => rfl, fun x hw tag idx => ?_, id, id⟩
  · by_cases hx : x = n
    · subst hx
      simp [tagWord, Tree.setNode]
    · simp [tagWord, Tree.setNode, hx]
  · by_cases hx : x = n
    · subst hx
      exact htag y fun hyo => hy (hyo ▸ hint)
    · simp [tagWord, Tree.setNode, hx]
  · by_cases hx : x = n
    · subst hx
      simp only [tagWord, Tree.setNode, Function.update_self]
      by_cases ht : tag = IDR_FREE
      · subst ht
        rw [Function.update_self]
        by_cases hi : idx = o / W
        · subst hi
          rw [Function.update_self]
          exact hf _ (hw _ _)
        · rw [Function.update_of_ne hi]
          exact hw _ _
      · rw [Function.update_of_ne ht]
        exact hw _ _
    · simp only [tagWord, Tree.setNode, Function.update_of_ne hx]
      exact hw _ _

theorem retagged_tagSet (hW : 0 < W) {n o : ℕ} (hint : isInternalNode ((s.node n).slots o)) :
    Retagged W s (tagSet W s n IDR_FREE o) := by
  refine retagged_tagWord hint (fun w hw => Nat.or_lt_two_pow hw
    (Nat.pow_lt_pow_right (by omega) (Nat.mod_lt _ hW))) fun y hy => ?_
  have := congrFun (congrFun (marks_tagSet (W := W) (s := s) n o) n) y
  rwa [setMark_ne _ fun h => hy h.2] at this

theorem retagged_tagClear (hW : 0 < W) {n o : ℕ} (hint : isInternalNode ((s.node n).slots o)) :
    Retagged W s (tagClear W s n IDR_FREE o) := by
  refine retagged_tagWord hint (fun w hw => (Nat.and_le_left).trans_lt hw) fun y hy => ?_
  have := congrFun (congrFun (marks_tagClear (s := s) hW n o) n) y
  rwa [setMark_ne _ fun h => hy h.2] at this

theorem retagged_rootTagSet (hr : isInternalNode s.rnode) :
    Retagged W s (s.rootTagSet IDR_FREE) := by
  refine ⟨rfl, rfl, fun _ => rfl, fun _ _ _ => rfl, fun h => absurd hr h, fun _ h => h, ?_, ?_⟩
  · rw [isIdr_iff, isIdr_iff]
    intro h
    simp [Tree.rootTagSet, h]
  · exact fun h => Nat.or_lt_two_pow h (by decide)

theorem retagged_rootTagClear (hr : isInternalNode s.rnode) :
    Retagged W s (s.rootTagClear IDR_FREE) := by
  refine ⟨rfl, rfl, fun _ => rfl, fun _ _ _ => rfl, fun h => absurd hr h, fun _ h => h, ?_, ?_⟩
  · rw [isIdr_iff, isIdr_iff, testBit_rootTagClear]
    intro h
    simp [h]
  · exact fun h => Nat.and_le_left.trans_lt h

/-! ### Up to the root -/

/-- The top node. -/
theorem parent_zero (h : Shape W Q s pre) {n : ℕ} (hn : n ∈ s.live) (h0 : (s.node n).parent = 0) :
    ((view W s pre).cell n).parent = none ∧ (view W s pre).root = .node n := by
  have hpar : ((view W s pre).cell n).parent = none := if_pos h0
  exact ⟨hpar, (h.wf.top n hn hpar).1⟩

/-- A node below another. -/
theorem parent_pos (h : Shape W Q s pre) {n : ℕ} (hn : n ∈ s.live) (h0 : (s.node n).parent ≠ 0) :
    ((view W s pre).cell n).parent = some (s.node n).parent ∧ (s.node n).parent ∈ s.live ∧
      (s.node n).offset < 64 ∧
      ((view W s pre).cell (s.node n).parent).slot (s.node n).offset = .node n ∧
      (s.node (s.node n).parent).shift = (s.node n).shift + 6 := by
  have hpar : ((view W s pre).cell n).parent = some (s.node n).parent := if_neg h0
  obtain ⟨hl, ho, hslot, hs, -⟩ := h.wf.up n hn _ hpar
  exact ⟨hpar, hl, ho, hslot, hs⟩

/-- **`node_tag_clear` above a node without tags.** -/
theorem nodeTagClear_spec (hW : W = 32 ∨ W = 64) : ∀ {k m : ℕ} {s : Tree}, Shape W Q s pre →
    m ∈ s.live → SummedBut 6 (view W s pre) (marks W s) (s.rootTagGet IDR_FREE) m →
    ¬ AnyMark 6 (marks W s) m → 37 ≤ k + (s.node m).shift →
    ∃ s', nodeTagClear W IDR_FREE k s (s.node m).parent (s.node m).offset = some s' ∧
      Inv W Q s' pre ∧ Retagged W s s'
  | 0, m, s, h, hm, _, _, hk => absurd (h.shift m hm) (by omega)
  | k + 1, m, s, h, hm, hbut, hnone, hk => by
    have hpos : 0 < W := by omega
    rw [nodeTagClear]
    by_cases h0 : (s.node m).parent = 0
    · obtain ⟨hpar, hroot⟩ := parent_zero h hm h0
      rw [if_neg (not_not.mpr h0)]
      by_cases ht : s.rootTagGet IDR_FREE = true
      · rw [if_pos ht]
        have hre := retagged_rootTagClear (W := W) (entryOf_eq_node.mp hroot).1
        refine ⟨_, rfl, ⟨hre.shape h, ?_⟩, hre⟩
        rw [hre.view_eq, rootTagGet_rootTagClear]
        exact (hbut.of_root hroot false).summed h.wf (.of_top hpar (by simpa using hnone))
      · rw [if_neg ht]
        exact ⟨s, rfl, ⟨h, hbut.summed h.wf (.of_top hpar (iff_of_false ht hnone))⟩, Retagged.refl s⟩
    · obtain ⟨hpar, hpl, ho, hslot, hs⟩ := parent_pos h hm h0
      have hp0 := (h.addr _ hpl).1
      have hoff : ((view W s pre).cell m).offset = (s.node m).offset := rfl
      generalize (s.node m).parent = p at *
      generalize (s.node m).offset = o at *
      have hint : isInternalNode ((s.node p).slots o) := ((slot_node ho).mp hslot).1
      rw [if_pos hp0]
      by_cases ht : tagGet W s p IDR_FREE o = true
      · rw [if_neg (not_not.mpr ht)]
        have hre := retagged_tagClear (W := W) hpos hint
        have hshape := hre.shape h
        have hlink : ∀ c, ((view W s pre).cell p).slot o = .node c →
            (false = true ↔ AnyMark 6 (marks W s) c) := by
          intro c hc
          rw [hslot] at hc
          cases hc
          simpa using hnone
        have hmove := hbut.setMark h.wf hpl ho (Or.inr hslot) hlink
        rw [← marks_tagClear hpos] at hmove
        have hpm : p ≠ m := by
          rintro rfl
          omega
        dsimp only
        by_cases hany : anyTagSet W (tagClear W s p IDR_FREE o) p IDR_FREE = true
        · -- the parent keeps some tag, so the link above it is right
          rw [if_pos hany]
          rw [anyTagSet_iff hW (hshape.words p hpl IDR_FREE)] at hany
          refine ⟨_, rfl, ⟨hshape, ?_⟩, hre⟩
          rw [hre.view_eq]
          refine hmove.summed h.wf ?_
          rw [marks_tagClear hpos] at hany ⊢
          exact (hbut.linkAbove h.wf hpl hpm).setMark (by omega) h.wf hpl
            (iff_of_true hany ⟨o, ho, ht⟩)
        · rw [if_neg hany]
          rw [anyTagSet_iff hW (hshape.words p hpl IDR_FREE)] at hany
          rw [← hre.view_eq] at hmove
          obtain ⟨s', heq, hinv, hre'⟩ := nodeTagClear_spec hW (k := k) hshape hpl hmove hany
            (by rw [hre.shift]; omega)
          exact ⟨s', heq, hinv, hre.trans hre'⟩
      · rw [if_pos (by simpa using ht)]
        have hlink : LinkAbove 6 (view W s pre) (marks W s) (s.rootTagGet IDR_FREE) m :=
          .of_parent hpar (by rw [hoff]; exact iff_of_false ht hnone)
        exact ⟨s, rfl, ⟨h, hbut.summed h.wf hlink⟩, Retagged.refl s⟩

/-- **`node_tag_set` above a node with a tag.** -/
theorem nodeTagSet_spec (hW : W = 32 ∨ W = 64) : ∀ {k m : ℕ} {s : Tree}, Shape W Q s pre →
    m ∈ s.live → SummedBut 6 (view W s pre) (marks W s) (s.rootTagGet IDR_FREE) m →
    AnyMark 6 (marks W s) m → 37 ≤ k + (s.node m).shift →
    ∃ s', nodeTagSet W IDR_FREE k s (s.node m).parent (s.node m).offset = some s' ∧
      Inv W Q s' pre ∧ Retagged W s s'
  | 0, m, s, h, hm, _, _, hk => absurd (h.shift m hm) (by omega)
  | k + 1, m, s, h, hm, hbut, hany, hk => by
    have hpos : 0 < W := by omega
    rw [nodeTagSet]
    by_cases h0 : (s.node m).parent = 0
    · obtain ⟨hpar, hroot⟩ := parent_zero h hm h0
      rw [if_neg (not_not.mpr h0)]
      by_cases ht : s.rootTagGet IDR_FREE = true
      · rw [if_pos ht]
        exact ⟨s, rfl, ⟨h, hbut.summed h.wf (.of_top hpar (iff_of_true ht hany))⟩, Retagged.refl s⟩
      · rw [if_neg ht]
        have hre := retagged_rootTagSet (W := W) (entryOf_eq_node.mp hroot).1
        refine ⟨_, rfl, ⟨hre.shape h, ?_⟩, hre⟩
        rw [hre.view_eq, rootTagGet_rootTagSet]
        exact (hbut.of_root hroot true).summed h.wf (.of_top hpar (by simpa using hany))
    · obtain ⟨hpar, hpl, ho, hslot, hs⟩ := parent_pos h hm h0
      have hp0 := (h.addr _ hpl).1
      have hoff : ((view W s pre).cell m).offset = (s.node m).offset := rfl
      generalize (s.node m).parent = p at *
      generalize (s.node m).offset = o at *
      have hint : isInternalNode ((s.node p).slots o) := ((slot_node ho).mp hslot).1
      rw [if_pos hp0]
      by_cases ht : tagGet W s p IDR_FREE o = true
      · rw [if_pos ht]
        have hlink : LinkAbove 6 (view W s pre) (marks W s) (s.rootTagGet IDR_FREE) m :=
          .of_parent hpar (by rw [hoff]; exact iff_of_true ht hany)
        exact ⟨s, rfl, ⟨h, hbut.summed h.wf hlink⟩, Retagged.refl s⟩
      · rw [if_neg ht]
        have hre := retagged_tagSet (W := W) hpos hint
        have hlink : ∀ c, ((view W s pre).cell p).slot o = .node c →
            (true = true ↔ AnyMark 6 (marks W s) c) := by
          intro c hc
          rw [hslot] at hc
          cases hc
          simpa using hany
        have hmove := hbut.setMark h.wf hpl ho (Or.inr hslot) hlink
        rw [← marks_tagSet, ← hre.view_eq] at hmove
        have hset : AnyMark 6 (marks W (tagSet W s p IDR_FREE o)) p :=
          ⟨o, ho, by rw [marks_tagSet, setMark_self]⟩
        obtain ⟨s', heq, hinv, hre'⟩ := nodeTagSet_spec hW (k := k) (hre.shape h) hpl hmove hset
          (by rw [hre.shift]; omega)
        exact ⟨s', heq, hinv, hre.trans hre'⟩

end HardStack.Ida.Tags
