import HardStack.Ida.Tags

/-! # New nodes

A node is put on top by `radix_tree_extend`, or below an empty slot by `idr_get_free`. All its tags
are set, but for the first slot of a new top, which takes over the tag of the root. The content stays
as it is, and so do the words and tags of the slots without a node. -/

namespace HardStack.Ida.Grow

open HardStack.Lib.Trie HardStack.Lib.Word HardStack.Radix.Model HardStack.Ida.Model
open HardStack.Ida.Layout HardStack.Ida.Tags
open HardStack.Radix.Layout (nodeToEntry_eq isInternalNode_nodeToEntry entryToNode_nodeToEntry
  addChar_one SlotOf)
open HardStack.Radix.Insert (Fresh Malloc newNode radixTreeNodeAlloc_eq extendShift_spec)

variable {W : ℕ} {Q : ℕ → Bool → Prop} {s : Tree} {pre : ℕ → ℕ} {p : ℕ}

/-! ### The tags of a new node -/

theorem freeTag_allTagSet (hW : W = 32 ∨ W = 64) (n : ℕ) {o : ℕ} (ho : o < 64) :
    freeTag W ((allTagSet W s n IDR_FREE).node n) o = true := by
  have hl : RADIX_TREE_TAG_LONGS W = 64 / W := by rcases hW with rfl | rfl <;> rfl
  have hidx : o / W < 64 / W := by rcases hW with rfl | rfl <;> omega
  unfold freeTag allTagSet Tree.setNode
  simp only [Function.update_self, hl, if_pos hidx]
  rw [Nat.testBit_two_pow_sub_one]
  exact decide_eq_true (Nat.mod_lt _ (by omega))

/-- What `extend_tags` leaves at the new node. -/
structure TopTags (W : ℕ) (s s' : Tree) (p : ℕ) : Prop where
  rnode : s'.rnode = s.rnode
  live : s'.live = s.live
  node : ∀ x, x ≠ p → s'.node x = s.node x
  new : s'.node p = { s.node p with tags := (s'.node p).tags }
  tag : ∀ o < 64, freeTag W (s'.node p) o = if o = 0 then s.rootTagGet IDR_FREE else true
  words : (∀ tag idx, (s.node p).tags tag idx < 2 ^ W) →
    ∀ tag idx, (s'.node p).tags tag idx < 2 ^ W
  root : s'.rootTagGet IDR_FREE = true
  idr : s'.isIdr
  mask : s.gfpMask < 2 ^ 32 → s'.gfpMask < 2 ^ 32

theorem allTagSet_words (n : ℕ) (h : ∀ tag idx, (s.node n).tags tag idx < 2 ^ W) (tag idx : ℕ) :
    ((allTagSet W s n IDR_FREE).node n).tags tag idx < 2 ^ W := by
  have hpos : 0 < 2 ^ W := by positivity
  unfold allTagSet Tree.setNode
  simp only [Function.update_self]
  by_cases ht : tag = IDR_FREE
  · subst ht
    rw [Function.update_self]
    split_ifs
    · omega
    · exact h _ _
  · rw [Function.update_of_ne ht]
    exact h _ _

theorem extendTags_spec (hW : W = 32 ∨ W = 64) (hidr : s.isIdr) (p : ℕ) :
    TopTags W s (extendTags W s p) p := by
  have hpos : 0 < W := by omega
  have hroot : (allTagSet W s p IDR_FREE).rootTagGet IDR_FREE = s.rootTagGet IDR_FREE := rfl
  unfold extendTags
  rw [if_pos hidr]
  dsimp only
  by_cases ht : s.rootTagGet IDR_FREE = true
  · rw [hroot, if_neg (not_not.mpr ht)]
    refine ⟨rfl, rfl, fun x hx => ?_, ?_, fun o ho => ?_, allTagSet_words p, ht, hidr, id⟩
    · simp [allTagSet, Tree.setNode, hx]
    · simp [allTagSet, Tree.setNode]
    · rw [freeTag_allTagSet hW p ho]
      split_ifs with h0
      · exact ht.symm
      · rfl
  · rw [hroot, if_pos ht]
    refine ⟨rfl, rfl, fun x hx => ?_, ?_, fun o ho => ?_, fun hw tag idx => ?_,
      rootTagGet_rootTagSet, ?_, fun h => Nat.or_lt_two_pow h (by decide)⟩
    · simp [Tree.rootTagSet, tagClear, tagWord, allTagSet, Tree.setNode, hx]
    · simp [Tree.rootTagSet, tagClear, tagWord, allTagSet, Tree.setNode]
    · show marks W (tagClear W (allTagSet W s p IDR_FREE) p IDR_FREE 0) p o = _
      rw [marks_tagClear hpos]
      by_cases h0 : o = 0
      · rw [if_pos h0, h0, setMark_self]
        simpa using ht
      · rw [if_neg h0, setMark_ne _ fun h => h0 h.2]
        exact freeTag_allTagSet hW p ho
    · have := allTagSet_words (W := W) p hw
      simp only [Tree.rootTagSet, tagClear, tagWord, Tree.setNode, Function.update_self]
      by_cases htag : tag = IDR_FREE
      · subst htag
        rw [Function.update_self]
        by_cases hi : idx = 0 / W
        · subst hi
          rw [Function.update_self]
          exact Nat.and_le_left.trans_lt (this _ _)
        · rw [Function.update_of_ne hi]
          exact this _ _
      · rw [Function.update_of_ne htag]
        exact this _ _
    · rw [isIdr_iff] at hidr ⊢
      simp [Tree.rootTagSet, tagClear, tagWord, allTagSet, Tree.setNode, hidr]

/-! ### A node on top -/

/-- The links of the new top `p` above the old one. -/
def linkTop (s : Tree) (p entry : ℕ) : Tree :=
  let s := if isInternalNode entry then s.setParent (entryToNode entry) p
    else if exceptionalEntry entry then s.setExceptional p 1 else s
  { s.setSlot (.slots p 0) entry with rnode := nodeToEntry p }

section

variable {entry : ℕ}

theorem linkTop_live : (linkTop s p entry).live = s.live := by
  unfold linkTop
  dsimp only
  split_ifs <;> rfl

theorem linkTop_mask : (linkTop s p entry).gfpMask = s.gfpMask := by
  unfold linkTop
  dsimp only
  split_ifs <;> rfl

/-- The parent of an old node: only the old top gets the new one. -/
def topParent (s : Tree) (p entry x : ℕ) : ℕ :=
  if isInternalNode entry ∧ x = entryToNode entry then p else (s.node x).parent

theorem linkTop_node {x : ℕ} (hx : x ≠ p) :
    (linkTop s p entry).node x = { s.node x with parent := topParent s p entry x } := by
  unfold linkTop topParent
  simp only [Tree.setSlot, Tree.setNode, Tree.setParent, Tree.setExceptional]
  split_ifs with h1 h2 h2 h3 h3 <;> simp_all

theorem linkTop_new (h : ¬ (isInternalNode entry ∧ p = entryToNode entry)) :
    ∃ e, (linkTop s p entry).node p = { s.node p with
      slots := Function.update (s.node p).slots 0 entry, exceptional := e } := by
  unfold linkTop
  simp only [Tree.setSlot, Tree.setNode, Tree.setParent, Tree.setExceptional]
  split_ifs with h1 h2
  · have hp : p ≠ entryToNode entry := fun hp => h ⟨h1, hp⟩
    exact ⟨(s.node p).exceptional, by simp [hp]⟩
  · exact ⟨addChar (s.node p).exceptional 1, by simp⟩
  · exact ⟨(s.node p).exceptional, by simp⟩

end

/-- The tree with the new node `p` on top. -/
def raiseTop (W : ℕ) (s : Tree) (p shift : ℕ) : Tree :=
  linkTop (extendTags W (newNode s p 0 shift 0 1) p) p s.rnode

/-- The fields of the new tree. -/
structure Raised (W : ℕ) (s s' : Tree) (p shift : ℕ) : Prop where
  rnode : s'.rnode = nodeToEntry p
  live : s'.live = insert p s.live
  node : ∀ x, x ≠ p → s'.node x = { s.node x with parent := topParent s p s.rnode x }
  new : ∃ e tags, s'.node p =
    ⟨shift, 0, 1, e, 0, Function.update (fun _ => 0) 0 s.rnode, tags⟩
  tag : ∀ o < 64, freeTag W (s'.node p) o = if o = 0 then s.rootTagGet IDR_FREE else true
  words : ∀ tag idx, (s'.node p).tags tag idx < 2 ^ W
  root : s'.rootTagGet IDR_FREE = true
  idr : s'.isIdr
  mask : s'.gfpMask < 2 ^ 32

theorem raiseTop_raised (hW : W = 32 ∨ W = 64) (h : Shape W Q s pre) (hf : Fresh s.live p)
    {shift : ℕ} (hs : shift < 256) : Raised W s (raiseTop W s p shift) p shift := by
  have ht := extendTags_spec hW (s := newNode s p 0 shift 0 1) h.idr p
  have hnode : ∀ x, x ≠ p → (newNode s p 0 shift 0 1).node x = s.node x := fun x hx => by
    simp [newNode, hx]
  have hnew : (newNode s p 0 shift 0 1).node p =
      ⟨shift % 256, 0, 1, 0, 0, fun _ => 0, fun _ _ => 0⟩ := by simp [newNode]
  have hne : ¬ (isInternalNode s.rnode ∧ p = entryToNode s.rnode) := by
    rintro ⟨hr, hp⟩
    exact hf.2.2 (hp ▸ (h.links.root hr).1)
  unfold raiseTop
  obtain ⟨e, he⟩ := linkTop_new (s := extendTags W (newNode s p 0 shift 0 1) p) hne
  generalize extendTags W (newNode s p 0 shift 0 1) p = t at ht he ⊢
  have htags : ((linkTop t p s.rnode).node p).tags = (t.node p).tags := by rw [he]
  refine ⟨rfl, ?_, fun x hx => ?_, ?_, fun o ho => ?_, ?_, ?_, ?_, ?_⟩
  · rw [linkTop_live, ht.live]
    rfl
  · unfold topParent
    rw [linkTop_node hx, topParent, ht.node x hx, hnode x hx]
  · refine ⟨e, (t.node p).tags, ?_⟩
    rw [he, ht.new, hnew, Nat.mod_eq_of_lt hs]
  · unfold freeTag
    rw [htags]
    exact ht.tag o ho
  · rw [htags]
    exact ht.words (by rw [hnew]; intro _ _; positivity)
  · unfold Tree.rootTagGet
    rw [linkTop_mask]
    exact ht.root
  · unfold Tree.isIdr
    rw [linkTop_mask]
    exact ht.idr
  · rw [linkTop_mask]
    exact ht.mask h.mask

/-- The shift of a new node on top of a root that is used. -/
structure TopShift (s : Tree) (shift : ℕ) : Prop where
  used : s.rnode ≠ 0 ∨ s.rootTagGet IDR_FREE = false
  item : ¬ isInternalNode s.rnode → shift = 0
  node : isInternalNode s.rnode → shift = (s.node (entryToNode s.rnode)).shift + 6

section

variable {shift : ℕ} {s' : Tree}

theorem Raised.onTop (hr : Raised W s s' p shift) (hf : Fresh s.live p) (pre : ℕ → ℕ) :
    OnTop (view W s pre) (view W s' (Function.update pre p 0)) p shift := by
  have hne : ∀ x ∈ s.live, x ≠ p := fun x hx hxp => hf.2.2 (hxp ▸ hx)
  have hroot : ∀ x, (view W s pre).root = .node x ↔
      isInternalNode s.rnode ∧ x = entryToNode s.rnode := fun x => entryOf_eq_node
  have hold : ∀ x ∈ s.live, (view W s' (Function.update pre p 0)).cell x =
      viewCell W { s.node x with parent := topParent s p s.rnode x } (pre x) := by
    intro x hx
    show viewCell W _ _ = _
    rw [hr.node x (hne x hx), Function.update_of_ne (hne x hx)]
  refine ⟨?_, hr.live, ?_, fun x hx => ?_, fun x hx hxr => ?_, fun x hx hxr => ?_⟩
  · show entryOf s'.rnode _ = _
    rw [hr.rnode, entryOf_nodeToEntry hf.2.1]
  · obtain ⟨e, tags, he⟩ := hr.new
    have htag := hr.tag
    show viewCell W _ _ = _
    rw [he] at htag ⊢
    rw [Function.update_self]
    ext o
    all_goals try rfl
    simp only [viewCell]
    by_cases ho : o < 64
    · rw [if_pos ho, htag o ho]
      by_cases h0 : o = 0
      · simp [h0, view]
      · simp [h0, entryOf_eq_empty.mpr ⟨rfl, rfl⟩]
    · rw [if_neg ho, Function.update_of_ne (by omega)]
  · rw [hold x hx]
    rfl
  · rw [hold x hx, topParent, if_pos ((hroot x).mp hxr)]
    simp [viewCell, hf.1]
  · rw [hold x hx, topParent, if_neg fun h => hxr ((hroot x).mpr h)]
    rfl

/-- **A new node on top** keeps the invariant and the content. -/
theorem Raised.inv (hr : Raised W s s' p shift) (h : Inv W Q s pre) (hf : Fresh s.live p)
    (hQ : Q 0 true) (ht : TopShift s shift) (hs : shift ≤ 30) :
    Inv W Q s' (Function.update pre p 0) ∧
      ∀ i a, Has W s' (Function.update pre p 0) i a ↔ Has W s pre i a := by
  have hon := hr.onTop hf pre
  have hne : ∀ x ∈ s.live, x ≠ p := fun x hx hxp => hf.2.2 (hxp ▸ hx)
  have hused : (view W s pre).root.used := by
    show (entryOf s.rnode (s.rootTagGet IDR_FREE)).used
    cases hd : entryOf s.rnode (s.rootTagGet IDR_FREE) with
    | empty =>
      obtain ⟨h0, htrue⟩ := entryOf_eq_empty.mp hd
      rcases ht.used with hu | hu
      · exact absurd h0 hu
      · rw [hu] at htrue
        cases htrue
    | item a => rfl
    | node n => rfl
  have hitem : ∀ a, (view W s pre).root = .item a → shift = 0 := fun a ha =>
    ht.item (entryOf_eq_item.mp ha).2.1
  have hnode : ∀ r, (view W s pre).root = .node r → shift = ((view W s pre).cell r).shift + 6 := by
    intro r hroot
    obtain ⟨h1, rfl⟩ := entryOf_eq_node.mp hroot
    exact ht.node h1
  obtain ⟨e, tags, he⟩ := hr.new
  have hmem : ∀ {x}, x ∈ s'.live → x = p ∨ x ∈ s.live ∧ x ≠ p := by
    intro x hx
    rw [hr.live, Finset.mem_insert] at hx
    by_cases hxp : x = p
    · exact Or.inl hxp
    · exact Or.inr ⟨hx.resolve_left hxp, hxp⟩
  have hint : isInternalNode s'.rnode := by rw [hr.rnode]; exact isInternalNode_nodeToEntry hf.2.1
  have hwf := hon.wf h.wf hf.2.2 hused hitem hnode
  have hold : ∀ x, x ≠ p → ∀ o, freeTag W (s'.node x) o = freeTag W (s.node x) o := by
    intro x hx o
    rw [hr.node x hx]
    rfl
  have hany : ∀ c, c ≠ p → (AnyMark 6 (marks W s') c ↔ AnyMark 6 (marks W s) c) := by
    intro c hc
    unfold AnyMark marks
    simp only [hold c hc]
  refine ⟨⟨⟨hwf, fun x hx => ?_, fun x hx => ?_, fun x hx tag idx => ?_, hr.idr, hr.mask,
    fun x hx o ho hslot => ?_, fun hroot => absurd hint hroot⟩, ⟨fun x hx o ho c hc => ?_,
    fun r hroot => ?_⟩⟩, fun i a => hon.holds hf.2.2 hitem⟩
  · rcases hmem hx with rfl | ⟨hx, -⟩
    · exact ⟨hf.1, hf.2.1⟩
    · exact h.addr x hx
  · rcases hmem hx with rfl | ⟨hx, hxp⟩
    · rw [he]
      exact hs
    · rw [hr.node x hxp]
      exact h.shift x hx
  · rcases hmem hx with rfl | ⟨hx, hxp⟩
    · exact hr.words tag idx
    · rw [hr.node x hxp]
      exact h.words x hx tag idx
  · rcases hmem hx with rfl | ⟨hx, hxp⟩
    · rw [hr.tag o ho]
      rw [he] at hslot ⊢
      by_cases h0 : o = 0
      · subst h0
        simp only [Function.update_self] at hslot ⊢
        exact h.root hslot
      · simpa [h0] using hQ
    · rw [hold x hxp]
      rw [hr.node x hxp] at hslot ⊢
      exact h.slot x hx o ho hslot
  · rcases hmem hx with rfl | ⟨hx, hxp⟩
    · -- the old top is in the first slot, with the tag of the root
      obtain ⟨hci, hce⟩ := (slot_node ho).mp hc
      rw [he] at hci hce
      have h0 : o = 0 := by
        by_contra h0
        simp only [Function.update_of_ne h0] at hci
        cases hci
      subst h0
      simp only [Function.update_self] at hci hce
      have hcl := (h.links.root hci).1
      rw [← hce] at hcl
      rw [hany c (hne c hcl)]
      show freeTag W (s'.node x) 0 = true ↔ _
      rw [hr.tag 0 (by omega), if_pos rfl]
      exact h.sum.root c (entryOf_eq_node.mpr ⟨hci, hce⟩)
    · obtain ⟨hci, hce⟩ := (slot_node ho).mp hc
      rw [hr.node x hxp] at hci hce
      have hcl := (h.links.child x hx o ho hci).1
      rw [← hce] at hcl
      rw [hany c (hne c hcl)]
      show freeTag W (s'.node x) o = true ↔ _
      rw [hold x hxp]
      exact h.sum.node x hx o ho c ((slot_node ho).mpr ⟨hci, hce⟩)
  · have hrp : r = p := by
      have := (entryOf_eq_node.mp hroot).2
      rwa [hr.rnode, entryToNode_nodeToEntry hf.2.1] at this
    refine iff_of_true hr.root ⟨1, by omega, ?_⟩
    rw [hrp]
    exact (hr.tag 1 (by omega)).trans (if_neg (by omega))

end

/-! ### A node below an empty slot -/

/-- The tree with the new node `p`, all tags set, in the slot `o` of `n`. -/
def hangNode (W : ℕ) (s : Tree) (p n shift o : ℕ) : Tree :=
  ((allTagSet W (newNode s p n shift o 0) p IDR_FREE).setSlot (.slots n o) (nodeToEntry p)).setCount
    n 1

/-- The tree with the new node `p`, all tags set, as its only one. -/
def hangRoot (W : ℕ) (s : Tree) (p shift : ℕ) : Tree :=
  (allTagSet W (newNode s p 0 shift 0 0) p IDR_FREE).setSlot .rnode (nodeToEntry p)

section

variable {n shift o : ℕ}

theorem hangNode_node {x : ℕ} (hx : x ≠ p) (hxn : x ≠ n) :
    (hangNode W s p n shift o).node x = s.node x := by
  simp [hangNode, allTagSet, newNode, Tree.setSlot, Tree.setCount, Tree.setNode, hx, hxn]

theorem hangNode_parent (hn : n ≠ p) (shift o : ℕ) : (hangNode W s p n shift o).node n =
    { s.node n with
      slots := Function.update (s.node n).slots o (nodeToEntry p)
      count := addChar (s.node n).count 1 } := by
  simp [hangNode, allTagSet, newNode, Tree.setSlot, Tree.setCount, Tree.setNode, hn]

theorem hangNode_new (hW : W = 32 ∨ W = 64) (hn : n ≠ p) (hs : shift < 256) (ho : o < 64) :
    ∃ tags, (hangNode W s p n shift o).node p = ⟨shift, o, 0, 0, n, fun _ => 0, tags⟩ ∧
      (∀ y < 64, freeTag W ((hangNode W s p n shift o).node p) y = true) ∧
      ∀ tag idx, tags tag idx < 2 ^ W := by
  have hnew : (newNode s p n shift o 0).node p = ⟨shift, o, 0, 0, n, fun _ => 0, fun _ _ => 0⟩ := by
    simp [newNode, Nat.mod_eq_of_lt hs, Nat.mod_eq_of_lt (show o < 256 by omega)]
  have hnode : (hangNode W s p n shift o).node p =
      (allTagSet W (newNode s p n shift o 0) p IDR_FREE).node p := by
    simp [hangNode, Tree.setSlot, Tree.setCount, Tree.setNode, Ne.symm hn]
  refine ⟨((allTagSet W (newNode s p n shift o 0) p IDR_FREE).node p).tags, ?_, fun y hy => ?_,
    allTagSet_words p (by rw [hnew]; intro _ _; positivity)⟩
  · rw [hnode]
    simp [allTagSet, Tree.setNode, hnew]
  · rw [hnode]
    exact freeTag_allTagSet hW p hy

/-- The invariant after a change that satisfies the side conditions, node by node. -/
theorem inv_of_nodes {s' : Tree} {pre' : ℕ → ℕ} (h : Inv W Q s pre) (hwf : Wf 6 (view W s' pre'))
    (hsum : Summed 6 (view W s' pre') (marks W s') (s'.rootTagGet IDR_FREE))
    (hidr : s'.isIdr) (hmask : s'.gfpMask < 2 ^ 32)
    (hroot : ¬ isInternalNode s'.rnode → Q s'.rnode (s'.rootTagGet IDR_FREE))
    (hnode : ∀ x ∈ s'.live, x ∈ s.live ∧ (s'.node x).shift = (s.node x).shift ∧
        (s'.node x).tags = (s.node x).tags ∧
        (∀ o < 64, ¬ isInternalNode ((s'.node x).slots o) →
          Q ((s'.node x).slots o) (freeTag W (s.node x) o)) ∨
      (x ≠ 0 ∧ 4 ∣ x) ∧ (s'.node x).shift ≤ 30 ∧ (∀ tag idx, (s'.node x).tags tag idx < 2 ^ W) ∧
        ∀ o < 64, ¬ isInternalNode ((s'.node x).slots o) →
          Q ((s'.node x).slots o) (freeTag W (s'.node x) o)) :
    Inv W Q s' pre' := by
  have htag : ∀ {x}, (s'.node x).tags = (s.node x).tags → ∀ o,
      freeTag W (s'.node x) o = freeTag W (s.node x) o := by
    intro x hx o
    unfold freeTag
    rw [hx]
  refine ⟨⟨hwf, fun x hx => ?_, fun x hx => ?_, fun x hx => ?_, hidr, hmask, fun x hx o ho hs => ?_,
    hroot⟩, hsum⟩
  all_goals rcases hnode x hx with ⟨hl, h1, h2, h3⟩ | ⟨h0, h1, h2, h3⟩
  · exact h.addr x hl
  · exact h0
  · rw [h1]; exact h.shift x hl
  · exact h1
  · rw [h2]; exact h.words x hl
  · exact h2
  · rw [htag h2]; exact h3 o ho hs
  · exact h3 o ho hs

/-- **A new node below an empty slot** keeps the invariant and the content. -/
theorem hangNode_inv (hW : W = 32 ∨ W = 64) (h : Inv W Q s pre) (hQ : Q 0 true)
    (hf : Fresh s.live p) (hn : n ∈ s.live) (ho : o < 64) (hs : (s.node n).shift = shift + 6)
    (he : (s.node n).slots o = 0) :
    Inv W Q (hangNode W s p n shift o) (Function.update pre p (pre n * 64 + o)) ∧
      ∀ i a, Has W (hangNode W s p n shift o) (Function.update pre p (pre n * 64 + o)) i a ↔
        Has W s pre i a := by
  obtain ⟨hp0, h4, hp⟩ := hf
  have hnp : n ≠ p := fun h => hp (h ▸ hn)
  have hn0 := (h.addr n hn).1
  have hs30 := h.shift n hn
  have hzero : ¬ isInternalNode ((s.node n).slots o) := by rw [he]; intro hc; cases hc
  have hempty := h.empty_of_inner hn ho (by omega) hzero
  have hslot : ((view W s pre).cell n).slot o = .empty := by
    rw [slot_view ho]
    exact entryOf_eq_empty.mpr hempty
  obtain ⟨tags, hnew, hnewtag, hwords⟩ := hangNode_new (s := s) hW hnp (show shift < 256 by omega) ho
  have hpar := hangNode_parent (W := W) (s := s) hnp shift o
  have hother : ∀ x, x ≠ p → x ≠ n → (hangNode W s p n shift o).node x = s.node x :=
    fun x hx hxn => hangNode_node hx hxn
  have htag : ∀ x, x ≠ p → ((hangNode W s p n shift o).node x).tags = (s.node x).tags := by
    intro x hx
    by_cases hxn : x = n
    · subst hxn
      rw [hpar]
    · rw [hother x hx hxn]
  have hlive : (hangNode W s p n shift o).live = insert p s.live := rfl
  have hrnode : (hangNode W s p n shift o).rnode = s.rnode := rfl
  have hmask : (hangNode W s p n shift o).gfpMask = s.gfpMask := rfl
  generalize hangNode W s p n shift o = s' at *
  have hfree : ∀ x, x ≠ p → ∀ y, freeTag W (s'.node x) y = freeTag W (s.node x) y := by
    intro x hx y
    unfold freeTag
    rw [htag x hx]
  have hview : view W s' (Function.update pre p (pre n * 64 + o)) =
      ((view W s pre).alloc p shift o (some n) (pre n * 64 + o)).setSlot n o (.node p)
        ((s.node n).count + 1) := by
    have hcount := h.count_le hn
    ext x : 2
    · show entryOf s'.rnode (s'.rootTagGet _) = entryOf s.rnode (s.rootTagGet _)
      rw [hrnode, Tree.rootTagGet, hmask]
      rfl
    · show x ∈ s'.live ↔ x ∈ insert p s.live
      rw [hlive]
    · rw [Store.cell_setSlot, Store.cell_alloc, Store.cell_alloc]
      show viewCell W (s'.node x) (Function.update pre p (pre n * 64 + o) x) = _
      by_cases hxn : x = n
      · subst hxn
        have hft := hfree x hnp
        rw [if_pos rfl, if_neg hnp, Function.update_of_ne hnp]
        rw [hpar] at hft ⊢
        rw [addChar_one (by omega)] at hft ⊢
        ext y
        all_goals try rfl
        simp only [viewCell, hft, Cell.put, view, Function.update_apply]
        by_cases hyo : y = o
        · simp [hyo, ho, entryOf_nodeToEntry h4]
        · simp [hyo]
      · by_cases hxp : x = p
        · subst hxp
          rw [if_neg hxn, if_pos rfl, Function.update_self]
          rw [hnew] at hnewtag ⊢
          ext y
          all_goals simp only [viewCell, if_neg hn0]
          by_cases hy : y < 64
          · rw [if_pos hy, hnewtag y hy, entryOf_eq_empty.mpr ⟨rfl, rfl⟩]
          · rw [if_neg hy]
        · rw [if_neg hxn, if_neg hxp, Function.update_of_ne hxp, hother x hxp hxn]
          rfl
  have hany : ∀ c, c ≠ p → (AnyMark 6 (marks W s') c ↔ AnyMark 6 (marks W s) c) := by
    intro c hc
    unfold AnyMark marks
    simp only [hfree c hc]
  have hne : ∀ x ∈ s.live, x ≠ p := fun x hx hxp => hp (hxp ▸ hx)
  have hanyp : AnyMark 6 (marks W s') p := ⟨0, by omega, hnewtag 0 (by omega)⟩
  refine ⟨inv_of_nodes h ?_ ⟨fun x hx y hy c hc => ?_, fun r hr => ?_⟩ ?_ ?_ ?_ fun x hx => ?_,
    fun i a => ?_⟩
  · rw [hview]
    exact h.wf.addChild hn hp ho hslot hs
  · obtain ⟨hci, hce⟩ := (slot_node hy).mp hc
    by_cases hxp : x = p
    · rw [hxp, hnew] at hci
      cases hci
    have hxl : x ∈ s.live := (Finset.mem_insert.mp (hlive ▸ hx)).resolve_left hxp
    show freeTag W (s'.node x) y = true ↔ _
    rw [hfree x hxp]
    by_cases hxy : x = n ∧ y = o
    · -- the new link: the slot was empty, so it is tagged
      obtain ⟨rfl, rfl⟩ := hxy
      rw [hpar] at hce
      simp only [Function.update_self, entryToNode_nodeToEntry h4] at hce
      rw [hce]
      exact iff_of_true hempty.2 hanyp
    · have hold : (s'.node x).slots y = (s.node x).slots y := by
        by_cases hxn : x = n
        · subst hxn
          rw [hpar]
          exact Function.update_of_ne (fun hyo => hxy ⟨rfl, hyo⟩) _ _
        · rw [hother x hxp hxn]
      rw [hold] at hci hce
      have hcl := (h.links.child x hxl y hy hci).1
      rw [← hce] at hcl
      rw [hany c (hne c hcl)]
      exact h.sum.node x hxl y hy c ((slot_node hy).mpr ⟨hci, hce⟩)
  · obtain ⟨hri, hre⟩ := entryOf_eq_node.mp hr
    rw [hrnode] at hri hre
    have hrl := (h.links.root hri).1
    rw [← hre] at hrl
    rw [hany r (hne r hrl), Tree.rootTagGet, hmask]
    exact h.sum.root r (entryOf_eq_node.mpr ⟨hri, hre⟩)
  · unfold Tree.isIdr
    rw [hmask]
    exact h.idr
  · rw [hmask]
    exact h.mask
  · rw [hrnode, Tree.rootTagGet, hmask]
    exact fun hr => absurd (h.root_internal hn) hr
  · by_cases hxp : x = p
    · subst hxp
      refine Or.inr ⟨⟨hp0, h4⟩, by rw [hnew]; show shift ≤ 30; omega, by rw [hnew]; exact hwords,
        fun y hy _ => ?_⟩
      rw [hnewtag y hy, hnew]
      exact hQ
    · have hxl : x ∈ s.live := (Finset.mem_insert.mp (hlive ▸ hx)).resolve_left hxp
      refine Or.inl ⟨hxl, ?_, htag x hxp, fun y hy hys => ?_⟩
      · by_cases hxn : x = n
        · subst hxn
          rw [hpar]
        · rw [hother x hxp hxn]
      · by_cases hxn : x = n
        · subst hxn
          rw [hpar] at hys ⊢
          by_cases hyo : y = o
          · subst hyo
            simp only [Function.update_self] at hys
            exact absurd (isInternalNode_nodeToEntry h4) hys
          · simp only [Function.update_of_ne hyo] at hys ⊢
            exact h.slot x hxl y hy hys
        · rw [hother x hxp hxn] at hys ⊢
          exact h.slot x hxl y hy hys
  · unfold Has
    rw [hview]
    exact Wf.holds_addChild hn hp hslot

theorem hangRoot_node {x : ℕ} (hx : x ≠ p) : (hangRoot W s p shift).node x = s.node x := by
  simp [hangRoot, allTagSet, newNode, Tree.setSlot, Tree.setNode, hx]

theorem hangRoot_new (hW : W = 32 ∨ W = 64) (hs : shift < 256) :
    ∃ tags, (hangRoot W s p shift).node p = ⟨shift, 0, 0, 0, 0, fun _ => 0, tags⟩ ∧
      (∀ y < 64, freeTag W ((hangRoot W s p shift).node p) y = true) ∧
      ∀ tag idx, tags tag idx < 2 ^ W := by
  have hnew : (newNode s p 0 shift 0 0).node p = ⟨shift, 0, 0, 0, 0, fun _ => 0, fun _ _ => 0⟩ := by
    simp [newNode, Nat.mod_eq_of_lt hs]
  have hnode : (hangRoot W s p shift).node p =
      (allTagSet W (newNode s p 0 shift 0 0) p IDR_FREE).node p := rfl
  refine ⟨((allTagSet W (newNode s p 0 shift 0 0) p IDR_FREE).node p).tags, ?_, fun y hy => ?_,
    allTagSet_words p (by rw [hnew]; intro _ _; positivity)⟩
  · rw [hnode]
    simp [allTagSet, Tree.setNode, hnew]
  · rw [hnode]
    exact freeTag_allTagSet hW p hy

/-- **The first node** of an empty tree. -/
theorem hangRoot_inv (hW : W = 32 ∨ W = 64) (h : Inv W Q s pre) (hQ : Q 0 true)
    (hf : Fresh s.live p) (hr : s.rnode = 0) (ht : s.rootTagGet IDR_FREE = true) (hdvd : 6 ∣ shift)
    (hs : shift ≤ 30) : Inv W Q (hangRoot W s p shift) (Function.update pre p 0) ∧
      ∀ i a, Has W (hangRoot W s p shift) (Function.update pre p 0) i a ↔ Has W s pre i a := by
  obtain ⟨hp0, h4, hp⟩ := hf
  have hzero : ¬ isInternalNode s.rnode := by rw [hr]; intro hc; cases hc
  have hempty := h.live_empty hzero
  have hroot : (view W s pre).root = .empty := entryOf_eq_empty.mpr ⟨hr, ht⟩
  obtain ⟨tags, hnew, hnewtag, hwords⟩ := hangRoot_new (s := s) (p := p) hW (show shift < 256 by omega)
  have hother : ∀ x, x ≠ p → (hangRoot W s p shift).node x = s.node x := fun x hx => hangRoot_node hx
  have hrnode : (hangRoot W s p shift).rnode = nodeToEntry p := rfl
  have hlive : (hangRoot W s p shift).live = {p} := by
    show insert p s.live = {p}
    rw [hempty]
    rfl
  have hlive' : (hangRoot W s p shift).live = insert p s.live := rfl
  have hmask : (hangRoot W s p shift).gfpMask = s.gfpMask := rfl
  generalize hangRoot W s p shift = s' at *
  have hview : view W s' (Function.update pre p 0) =
      ((view W s pre).alloc p shift 0 none 0).setRoot (.node p) := by
    ext x : 2
    · show entryOf s'.rnode _ = _
      rw [hrnode, entryOf_nodeToEntry h4]
      rfl
    · show x ∈ s'.live ↔ x ∈ insert p s.live
      rw [hlive']
    · rw [Store.cell_setRoot, Store.cell_alloc]
      show viewCell W (s'.node x) (Function.update pre p 0 x) = _
      by_cases hx : x = p
      · subst hx
        rw [if_pos rfl, Function.update_self]
        rw [hnew] at hnewtag ⊢
        ext y
        all_goals simp only [viewCell, if_pos]
        by_cases hy : y < 64
        · rw [if_pos hy, hnewtag y hy, entryOf_eq_empty.mpr ⟨rfl, rfl⟩]
        · rw [if_neg hy]
      · rw [if_neg hx, Function.update_of_ne hx, hother x hx]
        rfl
  obtain ⟨hwf, hhas⟩ := h.wf.addRoot (n := p) (s := shift) (by omega) hroot hdvd
  refine ⟨inv_of_nodes h (hview ▸ hwf) ⟨fun x hx y hy c hc => ?_, fun r hroot' => ?_⟩ ?_ ?_ ?_
    fun x hx => ?_, fun i a => ?_⟩
  · rw [show (view W s' (Function.update pre p 0)).live = {p} from hlive, Finset.mem_singleton] at hx
    have hci := ((slot_node hy).mp hc).1
    rw [hx, hnew] at hci
    cases hci
  · have hrp : r = p := by
      have := (entryOf_eq_node.mp hroot').2
      rwa [hrnode, entryToNode_nodeToEntry h4] at this
    rw [hrp, Tree.rootTagGet, hmask]
    exact iff_of_true ht ⟨0, by omega, hnewtag 0 (by omega)⟩
  · unfold Tree.isIdr
    rw [hmask]
    exact h.idr
  · rw [hmask]
    exact h.mask
  · rw [hrnode]
    exact fun hno => absurd (isInternalNode_nodeToEntry h4) hno
  · rw [hlive, Finset.mem_singleton] at hx
    rw [hx]
    refine Or.inr ⟨⟨hp0, h4⟩, by rw [hnew]; exact hs, by rw [hnew]; exact hwords, fun y hy _ => ?_⟩
    rw [hnewtag y hy, hnew]
    exact hQ
  · unfold Has
    rw [hview]
    exact hhas i a

end

/-! ### `radix_tree_extend` -/

variable {malloc : Finset ℕ → ℕ}

/-- One round of the loop. -/
theorem extendLoop_succ (hm : Malloc malloc) {maxshift k shift : ℕ} (hshift : shift ≤ W) :
    extendLoop W malloc maxshift (k + 1) s shift s.rnode =
      if shift + 6 ≤ maxshift then extendLoop W malloc maxshift k
        (raiseTop W s (malloc s.live) shift) (shift + 6) (nodeToEntry (malloc s.live))
      else some (raiseTop W s (malloc s.live) shift, 0) := by
  rw [extendLoop, radixTreeNodeAlloc_eq hm]
  simp only [Option.bind_eq_bind, Option.bind_some, if_neg (hm s.live).1]
  rw [if_neg (by omega)]
  rfl

/-- The top of the tree: its shift, one entry, and that in the first slot. -/
structure NewTop (s : Tree) (shift : ℕ) : Prop where
  internal : isInternalNode s.rnode
  shift : (s.node (entryToNode s.rnode)).shift = shift
  count : (s.node (entryToNode s.rnode)).count = 1
  slots : ∀ o, 0 < o → (s.node (entryToNode s.rnode)).slots o = 0

theorem Raised.newTop {s' : Tree} {shift : ℕ} (h : Raised W s s' p shift) (hf : Fresh s.live p) :
    NewTop s' shift := by
  obtain ⟨e, tags, he⟩ := h.new
  refine ⟨?_, ?_, ?_, fun o ho => ?_⟩
  · rw [h.rnode]
    exact isInternalNode_nodeToEntry hf.2.1
  all_goals rw [h.rnode, entryToNode_nodeToEntry hf.2.1, he]
  show Function.update (fun _ => 0) 0 s.rnode o = 0
  exact Function.update_of_ne (Nat.ne_of_gt ho) _ _

/-- The nodes below the top that the extension adds have an entry each. -/
theorem extendLoop_spec (hW : W = 32 ∨ W = 64) (hm : Malloc malloc) (hQ : Q 0 true) {maxshift : ℕ}
    (hmax : maxshift ≤ 30) : ∀ {k shift : ℕ} {s : Tree} {pre : ℕ → ℕ}, Inv W Q s pre →
    TopShift s shift → shift ≤ maxshift → 6 ∣ maxshift - shift → maxshift - shift < k →
    ∃ s' pre', extendLoop W malloc maxshift k s shift s.rnode = some (s', 0) ∧ Inv W Q s' pre' ∧
      (∀ i a, Has W s' pre' i a ↔ Has W s pre i a) ∧ NewTop s' maxshift ∧
      ((∀ x ∈ s.live, (s.node x).count ≠ 0) → ∀ x ∈ s'.live, (s'.node x).count ≠ 0)
  | 0, _, _, _, _, _, _, _, hk => absurd hk (by omega)
  | k + 1, shift, s, pre, h, ht, hle, hdvd, hk => by
    rw [extendLoop_succ hm (by omega)]
    have hf := hm s.live
    generalize malloc s.live = p at hf ⊢
    have hr := raiseTop_raised hW h.toShape hf (show shift < 256 by omega)
    obtain ⟨hinv', hhas⟩ := hr.inv h hf hQ ht (by omega)
    have htop := hr.newTop hf
    have hcount : (∀ x ∈ s.live, (s.node x).count ≠ 0) →
        ∀ x ∈ (raiseTop W s p shift).live, ((raiseTop W s p shift).node x).count ≠ 0 := by
      intro hc x hx
      by_cases hxp : x = p
      · have := htop.count
        rw [hr.rnode, entryToNode_nodeToEntry hf.2.1] at this
        rw [hxp, this]
        omega
      · rw [hr.live, Finset.mem_insert] at hx
        rw [hr.node x hxp]
        exact hc x (hx.resolve_left hxp)
    by_cases hmore : shift + 6 ≤ maxshift
    · rw [if_pos hmore, ← hr.rnode]
      have ht' : TopShift (raiseTop W s p shift) (shift + 6) := by
        refine ⟨Or.inl ?_, fun h => absurd htop.internal h, fun _ => by rw [htop.shift]⟩
        rw [hr.rnode, nodeToEntry_eq hf.2.1]
        omega
      obtain ⟨s', pre', heq, h1, h2, h3, h4⟩ := extendLoop_spec hW hm hQ hmax (k := k) hinv' ht'
        hmore (by omega) (by omega)
      exact ⟨s', pre', heq, h1, fun i a => (h2 i a).trans (hhas i a), h3, fun hc => h4 (hcount hc)⟩
    · rw [if_neg hmore]
      obtain rfl : shift = maxshift := by omega
      exact ⟨_, _, rfl, hinv', hhas, htop, hcount⟩

/-- What `radix_tree_extend` leaves: the height that the index needs, with a new top unless the tree
is empty. -/
structure Extended (W : ℕ) (Q : ℕ → Bool → Prop) (s : Tree) (pre : ℕ → ℕ) (index : ℕ) (s' : Tree)
    (pre' : ℕ → ℕ) (shift : ℕ) : Prop where
  inv : Inv W Q s' pre'
  has : ∀ i a, Has W s' pre' i a ↔ Has W s pre i a
  dvd : 6 ∣ shift
  le : shift ≤ 30
  digit : 2 ^ shift ≤ index
  fits : index < 2 ^ (shift + 6)
  count : (∀ x ∈ s.live, (s.node x).count ≠ 0) → ∀ x ∈ s'.live, (s'.node x).count ≠ 0
  top : (s.rnode = 0 ∧ s.rootTagGet IDR_FREE = true ∧ s' = s ∧ pre' = pre) ∨ NewTop s' shift

/-- **`radix_tree_extend`** for an index of an `int`. -/
theorem radixTreeExtend_spec (hW : W = 32 ∨ W = 64) (hm : Malloc malloc) (h : Inv W Q s pre)
    (hQ : Q 0 true) {index fuel : ℕ} (hi : index < 2 ^ 31) (hf : 64 ≤ fuel)
    (hgt : index > (radixTreeLoadRoot W s).1) : ∃ (s' : Tree) (pre' : ℕ → ℕ) (shift : ℕ),
      radixTreeExtend W malloc fuel s index (radixTreeLoadRoot W s).2 =
        some (s', ((shift + 6 : ℕ) : ℤ)) ∧ Extended W Q s pre index s' pre' shift := by
  have hiW : index < 2 ^ W := hi.trans_le (Nat.pow_le_pow_right (by omega) (by omega))
  -- the height so far leaves room
  have hstart : 2 ^ (radixTreeLoadRoot W s).2 ≤ index ∧ 6 ∣ (radixTreeLoadRoot W s).2 := by
    unfold radixTreeLoadRoot at hgt ⊢
    split_ifs at hgt ⊢ with hr
    · exact ⟨(Radix.Layout.lt_shiftMaxindex hiW).mp hgt,
        dvd_add (h.wf.dvd _ (h.links.root hr).1) dvd_rfl⟩
    · exact ⟨by simpa using Nat.one_le_iff_ne_zero.mpr (Nat.ne_of_gt hgt), dvd_zero 6⟩
  have hlow : (radixTreeLoadRoot W s).2 < 31 :=
    (Nat.pow_lt_pow_iff_right (by omega)).mp (hstart.1.trans_lt hi)
  obtain ⟨r, j, hr, hrj, -, hri, hmin⟩ :=
    extendShift_spec hiW (k := fuel) (m := (radixTreeLoadRoot W s).2) (by omega) (by omega)
  have hdigit := hmin hstart.1
  have hr31 : r < 31 := (Nat.pow_lt_pow_iff_right (by omega)).mp (hdigit.trans_lt hi)
  have hdvd : 6 ∣ r := by rw [hrj]; exact dvd_add hstart.2 (dvd_mul_right 6 j)
  unfold radixTreeExtend
  rw [hr]
  simp only [Option.bind_eq_bind, Option.bind_some]
  by_cases h0 : s.rnode = 0 ∧ s.rootTagGet IDR_FREE = true
  · rw [if_pos ⟨h0.1, Or.inr h0.2⟩]
    exact ⟨s, pre, r, rfl, h, fun _ _ => Iff.rfl, hdvd, by omega, hdigit, hri, id,
      Or.inl ⟨h0.1, h0.2, rfl, rfl⟩⟩
  · rw [if_neg (by rintro ⟨h1, h2 | h2⟩; exacts [h2 h.idr, h0 ⟨h1, h2⟩])]
    have ht : TopShift s (radixTreeLoadRoot W s).2 := by
      unfold radixTreeLoadRoot
      refine ⟨?_, fun h => by rw [if_neg h], fun h => by rw [if_pos h]; rfl⟩
      by_cases h1 : s.rnode = 0
      · exact Or.inr (by simpa [h1] using h0)
      · exact Or.inl h1
    obtain ⟨s', pre', heq, h1, h2, h3, h4⟩ := extendLoop_spec hW hm hQ (show r ≤ 30 by omega)
      (k := fuel) h ht (by omega) (by omega) (by omega)
    rw [heq]
    exact ⟨s', pre', r, rfl, h1, h2, hdvd, by omega, hdigit, hri, h4, Or.inr h3⟩

end HardStack.Ida.Grow
