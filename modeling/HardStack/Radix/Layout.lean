import HardStack.Lib.Trie
import HardStack.Radix.Model

/-! # The tree as a trie

`view s pre` reads the words of the memory as a trie with `2 ^ 6` slots a node. `Inv W s pre`: the
trie has its shape, the nodes are aligned, no shift leaves the word and every node starts at a word,
and the root is not an IDR's, so that no tag is ever set. -/

namespace HardStack.Radix.Layout

open HardStack.Lib.Trie HardStack.Radix.Model

variable {W : ℕ} {s : Tree} {pre : ℕ → ℕ}

/-! ### Words -/

/-- What a word in a slot means. -/
def decode (w : ℕ) : Entry ℕ ℕ :=
  if w = 0 then .empty else if isInternalNode w then .node (entryToNode w) else .item w

@[simp] theorem decode_zero : decode 0 = .empty := rfl

theorem nodeToEntry_eq {n : ℕ} (h : 4 ∣ n) : nodeToEntry n = n + 1 := by
  obtain ⟨k, rfl⟩ := h
  have := Nat.lor_bit false (2 * k) true 0
  simp only [Nat.bit] at this
  unfold nodeToEntry
  rw [show 4 * k = 2 * (2 * k) by ring]
  simpa using this

theorem isInternalNode_nodeToEntry {n : ℕ} (h : 4 ∣ n) : isInternalNode (nodeToEntry n) := by
  unfold isInternalNode
  rw [nodeToEntry_eq h]
  omega

theorem entryToNode_nodeToEntry {n : ℕ} (h : 4 ∣ n) : entryToNode (nodeToEntry n) = n := by
  unfold entryToNode
  rw [nodeToEntry_eq h]
  omega

theorem decode_nodeToEntry {n : ℕ} (h : 4 ∣ n) : decode (nodeToEntry n) = .node n := by
  unfold decode
  rw [if_neg (by rw [nodeToEntry_eq h]; omega), if_pos (isInternalNode_nodeToEntry h),
    entryToNode_nodeToEntry h]

theorem entryToNode_of_dvd {n : ℕ} (h : 4 ∣ n) : entryToNode n = n := by
  unfold entryToNode
  omega

theorem decode_eq_empty {w : ℕ} : decode w = .empty ↔ w = 0 := by
  unfold decode
  split_ifs with h0 h1 <;> simp [h0]

theorem decode_eq_node {w n : ℕ} : decode w = .node n ↔ isInternalNode w ∧ n = entryToNode w := by
  unfold decode
  split_ifs with h0 h1
  · simp [h0, isInternalNode]
  · simp [h1, eq_comm]
  · simp [h1]

theorem decode_eq_item {w a : ℕ} : decode w = .item a ↔ w = a ∧ w ≠ 0 ∧ ¬ isInternalNode w := by
  unfold decode
  split_ifs with h0 h1
  · simp [h0]
  · simp [h1]
  · simp [h0, h1]

theorem decode_item {a : ℕ} (h0 : a ≠ 0) (h1 : ¬ isInternalNode a) : decode a = .item a :=
  decode_eq_item.mpr ⟨rfl, h0, h1⟩

/-- The word of a node's entry. -/
theorem nodeToEntry_entryToNode {w : ℕ} (h : isInternalNode w) : nodeToEntry (entryToNode w) = w := by
  unfold isInternalNode at h
  unfold entryToNode
  rw [nodeToEntry_eq (by omega)]
  omega

theorem addChar_one {c : ℕ} (h : c < 255) : addChar c 1 = c + 1 := by unfold addChar; omega

theorem addChar_neg_one {c : ℕ} (h : 0 < c) (h' : c ≤ 255) : addChar c (-1) = c - 1 := by
  unfold addChar; omega

/-! ### The view -/

def viewCell (x : Node) (pre : ℕ) : Cell ℕ ℕ where
  shift := x.shift
  offset := x.offset
  count := x.count
  parent := if x.parent = 0 then none else some x.parent
  slot := fun o => decode (x.slots o)
  pre := pre

def view (s : Tree) (pre : ℕ → ℕ) : Store ℕ ℕ where
  root := decode s.rnode
  live := s.live
  cell := fun n => viewCell (s.node n) (pre n)

/-- **The invariant** of a tree that is not an IDR. -/
structure Inv (W : ℕ) (s : Tree) (pre : ℕ → ℕ) : Prop where
  wf : Wf 6 (view s pre)
  addr : ∀ n ∈ s.live, n ≠ 0 ∧ 4 ∣ n
  shift : ∀ n ∈ s.live, (s.node n).shift < W
  mask : s.gfpMask < 2 ^ ROOT_TAG_SHIFT
  notIdr : ¬ s.isIdr
  tags : ∀ n ∈ s.live, ∀ tag idx, (s.node n).tags tag idx = 0
  start : ∀ n ∈ s.live, pre n * 2 ^ ((s.node n).shift + 6) < 2 ^ W

/-- The links of the nodes in use, as a descent follows them: every child has its digits. -/
structure Links (s : Tree) (pre : ℕ → ℕ) : Prop where
  addr : ∀ n ∈ s.live, n ≠ 0 ∧ 4 ∣ n
  root : isInternalNode s.rnode → entryToNode s.rnode ∈ s.live ∧
    (s.node (entryToNode s.rnode)).parent = 0 ∧ pre (entryToNode s.rnode) = 0
  child : ∀ n ∈ s.live, ∀ o < 64, isInternalNode ((s.node n).slots o) →
    entryToNode ((s.node n).slots o) ∈ s.live ∧
    (s.node n).shift = (s.node (entryToNode ((s.node n).slots o))).shift + 6 ∧
    pre (entryToNode ((s.node n).slots o)) = pre n * 64 + o

/-- A node's entry is not `RADIX_TREE_RETRY`. -/
theorem Links.ne_retry (h : Links s pre) {w : ℕ} (hw : entryToNode w ∈ s.live) :
    w ≠ RADIX_TREE_RETRY := by
  rintro rfl
  exact (h.addr _ hw).1 rfl

/-- The content of the tree. -/
def Has (s : Tree) (pre : ℕ → ℕ) (i a : ℕ) : Prop := Holds 6 (view s pre) i a

namespace Inv

variable {n o m : ℕ}

theorem count_eq (h : Inv W s pre) (hn : n ∈ s.live) :
    (s.node n).count = (viewCell (s.node n) (pre n)).size 6 := h.wf.count n hn

theorem count_le (h : Inv W s pre) (hn : n ∈ s.live) : (s.node n).count ≤ 64 := by
  rw [h.count_eq hn]
  exact Cell.size_le 6 _

/-- The child that a slot points to. -/
theorem child (h : Inv W s pre) (hn : n ∈ s.live) (ho : o < 64)
    (hc : isInternalNode ((s.node n).slots o)) :
    entryToNode ((s.node n).slots o) ∈ s.live ∧
      (s.node n).shift = (s.node (entryToNode ((s.node n).slots o))).shift + 6 :=
  have hslot : ((view s pre).cell n).slot o = .node (entryToNode ((s.node n).slots o)) :=
    decode_eq_node.mpr ⟨hc, rfl⟩
  have hch := h.wf.child hn ho hslot
  ⟨hch.1, hch.2.1⟩

theorem root (h : Inv W s pre) (hr : isInternalNode s.rnode) : entryToNode s.rnode ∈ s.live ∧
    (s.node (entryToNode s.rnode)).parent = 0 ∧ pre (entryToNode s.rnode) = 0 := by
  have hroot : (view s pre).root = .node (entryToNode s.rnode) := decode_eq_node.mpr ⟨hr, rfl⟩
  obtain ⟨hl, hp⟩ := h.wf.root_node _ hroot
  refine ⟨hl, ?_, (h.wf.top _ hl hp).2.1⟩
  by_contra h0
  simp [view, viewCell, h0] at hp

/-- The links that a descent follows. -/
theorem links (h : Inv W s pre) : Links s pre where
  addr := h.addr
  root hr := h.root hr
  child n hn o ho hc := by
    have hslot : ((view s pre).cell n).slot o = .node (entryToNode ((s.node n).slots o)) :=
      decode_eq_node.mpr ⟨hc, rfl⟩
    exact h.wf.child hn ho hslot

end Inv

/-! ### The largest index -/

/-- The comparison with the largest index; the shift to the left wraps around at the top. -/
theorem lt_shiftMaxindex {shift i : ℕ} (hi : i < 2 ^ W) :
    shiftMaxindex W shift < i ↔ 2 ^ (shift + 6) ≤ i := by
  have hsize : RADIX_TREE_MAP_SIZE * 2 ^ shift = 2 ^ (shift + 6) := by
    rw [RADIX_TREE_MAP_SIZE, pow_add]; ring
  have hW : 0 < 2 ^ W := by positivity
  have hpos : 0 < 2 ^ (shift + 6) := by positivity
  unfold shiftMaxindex
  rw [hsize]
  by_cases h : shift + 6 < W
  · have hlt : 2 ^ (shift + 6) < 2 ^ W := Nat.pow_lt_pow_right (by omega) h
    have heq : 2 ^ (shift + 6) + 2 ^ W - 1 = (2 ^ (shift + 6) - 1) + 2 ^ W := by omega
    rw [Nat.mod_eq_of_lt hlt, heq, Nat.add_mod_right, Nat.mod_eq_of_lt (by omega)]
    omega
  · have hdvd : 2 ^ W ∣ 2 ^ (shift + 6) := Nat.pow_dvd_pow 2 (by omega)
    have hle : 2 ^ W ≤ 2 ^ (shift + 6) := Nat.le_of_dvd hpos hdvd
    rw [Nat.mod_eq_zero_of_dvd hdvd, zero_add, Nat.mod_eq_of_lt (by omega)]
    omega

/-- In range exactly when there are no digits above the root's. -/
theorem lt_maxindex {i : ℕ} (hi : i < 2 ^ W) : i ≤ (radixTreeLoadRoot W s).1 ↔
    if isInternalNode s.rnode then i < 2 ^ ((s.node (entryToNode s.rnode)).shift + 6) else i = 0 := by
  unfold radixTreeLoadRoot
  split_ifs with hr
  · rw [← not_lt, lt_shiftMaxindex hi, not_le]
  · simp

/-! ### Lookup -/

/-- The slot of an index in a node that has its leading digits. -/
structure SlotOf (s : Tree) (pre : ℕ → ℕ) (i n o : ℕ) : Prop where
  live : n ∈ s.live
  digits : pre n = i / 2 ^ ((s.node n).shift + 6)
  offset : o = i / 2 ^ (s.node n).shift % 64

theorem SlotOf.offset_lt {i n o : ℕ} (h : SlotOf s pre i n o) : o < 64 := by
  rw [h.offset]
  exact Nat.mod_lt _ (by omega)

theorem SlotOf.descend {i n o : ℕ} (h : SlotOf s pre i n o) : descendOffset s n i = o :=
  h.offset.symm

/-- What the slot of an index holds, if not a node, is the content. -/
theorem SlotOf.has_iff (hinv : Inv W s pre) {i n o a : ℕ} (h : SlotOf s pre i n o)
    (hslot : ¬ isInternalNode ((s.node n).slots o)) :
    Has s pre i a ↔ (s.node n).slots o = a ∧ a ≠ 0 := by
  have hcell : ((view s pre).cell n).slot (i / 2 ^ ((view s pre).cell n).shift % 2 ^ 6) =
      decode ((s.node n).slots o) := by rw [h.offset]; rfl
  by_cases h0 : (s.node n).slots o = 0
  · rw [h0, decode_zero] at hcell
    have hno := hinv.wf.find_empty (by omega) h.live h.digits hcell a
    constructor
    · exact fun ha => absurd ha hno
    · rintro ⟨rfl, hne⟩
      exact absurd h0 hne
  · rw [decode_item h0 hslot] at hcell
    have hhas : Has s pre i ((s.node n).slots o) := hinv.wf.find_item h.live h.digits hcell
    constructor
    · intro ha
      have heq := hinv.wf.holds_unique (by omega) hhas ha
      exact ⟨heq, heq ▸ h0⟩
    · rintro ⟨rfl, -⟩
      exact hhas

/-- The slot of the index one level down. -/
theorem SlotOf.down (hl : Links s pre) {i n o : ℕ} (h : SlotOf s pre i n o)
    (hslot : isInternalNode ((s.node n).slots o)) :
    let m := entryToNode ((s.node n).slots o)
    SlotOf s pre i m (descendOffset s m i) ∧ (s.node n).shift = (s.node m).shift + 6 := by
  obtain ⟨hm, hs, hp⟩ := hl.child n h.live o h.offset_lt hslot
  refine ⟨⟨hm, ?_, rfl⟩, hs⟩
  rw [hp, ← hs, h.digits, pow_add, ← Nat.div_div_eq_div_mul]
  rw [show o = i / 2 ^ (s.node n).shift % 2 ^ 6 from h.offset]
  exact Nat.div_add_mod' _ _

theorem lookupLoop_spec (hl : Links s pre) {i : ℕ} : ∀ {k n o : ℕ}, SlotOf s pre i n o →
    (s.node n).shift < k → ∃ m o', SlotOf s pre i m o' ∧
      ¬ isInternalNode ((s.node m).slots o') ∧
      lookupLoop W s i k ((s.node n).slots o) n (.slots n o) =
        some ((s.node m).slots o', m, some (.slots m o'))
  | 0, _, _, _, hk => absurd hk (by omega)
  | k + 1, n, o, h, hk => by
    rw [lookupLoop]
    by_cases hslot : isInternalNode ((s.node n).slots o)
    · obtain ⟨hdown, hs⟩ := h.down hl hslot
      rw [if_pos hslot, if_neg (hl.ne_retry hdown.live)]
      exact lookupLoop_spec hl hdown (by omega)
    · rw [if_neg hslot]
      exact ⟨n, o, h, hslot, rfl⟩

/-- The slot of an index at the root's node. -/
theorem slotOf_root (hl : Links s pre) (hr : isInternalNode s.rnode) {i : ℕ}
    (hi : i < 2 ^ ((s.node (entryToNode s.rnode)).shift + 6)) :
    SlotOf s pre i (entryToNode s.rnode) (descendOffset s (entryToNode s.rnode) i) := by
  obtain ⟨hlive, -, hp⟩ := hl.root hr
  exact ⟨hlive, by rw [hp, Nat.div_eq_of_lt hi], rfl⟩

/-- Where a lookup ends. -/
inductive Reached (W : ℕ) (s : Tree) (pre : ℕ → ℕ) (i : ℕ) : ℕ × ℕ × Option Slot → Prop
  | beyond (hi : (radixTreeLoadRoot W s).1 < i) : Reached W s pre i (0, 0, none)
  | root (hr : ¬ isInternalNode s.rnode) (hi : i = 0) :
      Reached W s pre i (s.rnode, 0, some .rnode)
  | node {n o : ℕ} (h : SlotOf s pre i n o) (hslot : ¬ isInternalNode ((s.node n).slots o)) :
      Reached W s pre i ((s.node n).slots o, n, some (.slots n o))

theorem radixTreeLookupSlot_reached (hl : Links s pre) (hshift : ∀ n ∈ s.live, (s.node n).shift < W)
    {i fuel : ℕ} (hi : i < 2 ^ W) (hf : W < fuel) :
    ∃ r, radixTreeLookupSlot W fuel s i = some r ∧ Reached W s pre i r := by
  unfold radixTreeLookupSlot
  have hmax := lt_maxindex (s := s) hi
  obtain ⟨k, rfl⟩ : ∃ k, fuel = k + 1 := ⟨fuel - 1, by omega⟩
  by_cases hgt : i > (radixTreeLoadRoot W s).1
  · rw [if_pos hgt]
    exact ⟨_, rfl, .beyond hgt⟩
  · rw [if_neg hgt, lookupLoop]
    by_cases hr : isInternalNode s.rnode
    · rw [if_pos hr] at hmax
      have hslot := slotOf_root hl hr (hmax.mp (by omega))
      obtain ⟨m, o, hm, hmi, heq⟩ := lookupLoop_spec hl (k := k) hslot
        (by have := hshift _ hslot.live; omega)
      rw [if_pos hr, if_neg (hl.ne_retry hslot.live)]
      exact ⟨_, heq, .node hm hmi⟩
    · rw [if_neg hr] at hmax
      rw [if_neg hr]
      exact ⟨_, rfl, .root hr (hmax.mp (by omega))⟩

/-- What a lookup finds. -/
inductive Found (s : Tree) (pre : ℕ → ℕ) (i : ℕ) : ℕ × ℕ × Option Slot → Prop
  | beyond (hno : ∀ a, ¬ Has s pre i a) : Found s pre i (0, 0, none)
  | root (hr : ¬ isInternalNode s.rnode) (hi : i = 0) : Found s pre i (s.rnode, 0, some .rnode)
  | node {n o : ℕ} (h : SlotOf s pre i n o) (hslot : ¬ isInternalNode ((s.node n).slots o)) :
      Found s pre i ((s.node n).slots o, n, some (.slots n o))

theorem has_root (hr : ¬ isInternalNode s.rnode) (hinv : Inv W s pre) {i a : ℕ} :
    Has s pre i a ↔ (s.rnode = a ∧ a ≠ 0) ∧ i = 0 := by
  have hroot : ∀ r, (view s pre).root ≠ .node r := fun r h => hr (decode_eq_node.mp h).1
  have hlive := hinv.wf.live_empty (by omega) hroot
  unfold Has Holds
  rw [hlive]
  simp only [Finset.notMem_empty, false_and, exists_false, false_or]
  refine and_congr_left fun _ => ?_
  show decode s.rnode = .item a ↔ _
  rw [decode_eq_item]
  constructor
  · rintro ⟨rfl, h0, -⟩; exact ⟨rfl, h0⟩
  · rintro ⟨rfl, h0⟩; exact ⟨rfl, h0, hr⟩

theorem radixTreeLookupSlot_spec (hinv : Inv W s pre) {i fuel : ℕ} (hi : i < 2 ^ W)
    (hf : W < fuel) : ∃ r, radixTreeLookupSlot W fuel s i = some r ∧ Found s pre i r := by
  obtain ⟨r, heq, hreach⟩ := radixTreeLookupSlot_reached hinv.links hinv.shift hi hf
  refine ⟨r, heq, ?_⟩
  cases hreach with
  | beyond hgt =>
    have hmax := lt_maxindex (s := s) hi
    refine .beyond fun a ha => ?_
    by_cases hr : isInternalNode s.rnode
    · rw [if_pos hr] at hmax
      have hroot : (view s pre).root = .node (entryToNode s.rnode) := decode_eq_node.mpr ⟨hr, rfl⟩
      exact absurd (hmax.mpr (hinv.wf.lt_of_holds (by omega) hroot ha)) (by omega)
    · rw [if_neg hr] at hmax
      exact absurd (hmax.mpr ((has_root hr hinv).mp ha).2) (by omega)
  | root hr h0 => exact .root hr h0
  | node h hslot => exact .node h hslot

/-- **What a lookup finds is the content.** -/
theorem Found.has_iff (hinv : Inv W s pre) {i a : ℕ} {r : ℕ × ℕ × Option Slot}
    (h : Found s pre i r) : Has s pre i a ↔ r.1 = a ∧ a ≠ 0 := by
  cases h with
  | beyond hno =>
    constructor
    · exact fun ha => absurd ha (hno a)
    · rintro ⟨rfl, h0⟩
      exact absurd rfl h0
  | root hr hi => rw [has_root hr hinv]; simp [hi]
  | node h hslot => exact h.has_iff hinv hslot

end HardStack.Radix.Layout
