import HardStack.Ida.Layout
import HardStack.Lib.Cursor
import HardStack.Radix.Run

/-! # Iteration over the items

`radix_tree_next_chunk` finds the first item from an index on, and `radix_tree_next_slot` the next one
in the same leaf. Both skip `NULL`, whatever the tags say, so the trie is read here without the tags
(`itemView`); what the iteration relies on is the same for a radix tree and for the tree of an IDR
(`Walkable`). -/

namespace HardStack.Ida.Iterate

open HardStack.Lib HardStack.Lib.Trie HardStack.Lib.Word HardStack.Radix.Model HardStack.Ida.Model
open HardStack.Radix.Layout (decode decode_eq_empty decode_eq_item decode_eq_node decode_item
  lt_maxindex lt_shiftMaxindex)

variable {W : ℕ} {s : Tree} {pre : ℕ → ℕ} {past : ℕ → ℕ → ℕ}

/-! ### The items -/

/-- A node, with the number of its slots that are not `NULL` for its count. -/
def itemCell (x : Node) (pre : ℕ) : Cell ℕ ℕ :=
  { Radix.Layout.viewCell x pre with count := (Radix.Layout.viewCell x pre).size 6 }

def itemView (s : Tree) (pre : ℕ → ℕ) : Store ℕ ℕ where
  root := decode s.rnode
  live := s.live
  cell := fun n => itemCell (s.node n) (pre n)

/-- The items. -/
def Item (s : Tree) (pre : ℕ → ℕ) (i a : ℕ) : Prop := Holds 6 (itemView s pre) i a

/-- What the iteration relies on. -/
structure Walkable (W : ℕ) (s : Tree) (pre : ℕ → ℕ) : Prop where
  wf : Wf 6 (itemView s pre)
  addr : ∀ n ∈ s.live, n ≠ 0 ∧ 4 ∣ n
  shift : ∀ n ∈ s.live, (s.node n).shift < W
  start : ∀ n ∈ s.live, pre n * 2 ^ ((s.node n).shift + 6) < 2 ^ W

/-- The position of a slot. -/
def slotPos (s : Tree) (pre : ℕ → ℕ) (n o : ℕ) : ℕ := pos 6 (itemView s pre) n o

namespace Walkable

variable {n o i : ℕ}

theorem root (h : Walkable W s pre) (hr : isInternalNode s.rnode) : entryToNode s.rnode ∈ s.live ∧
    pre (entryToNode s.rnode) = 0 := by
  have hroot : (itemView s pre).root = .node (entryToNode s.rnode) := decode_eq_node.mpr ⟨hr, rfl⟩
  obtain ⟨hl, hp⟩ := h.wf.root_node _ hroot
  exact ⟨hl, (h.wf.top _ hl hp).2.1⟩

theorem child (h : Walkable W s pre) (hn : n ∈ s.live) (ho : o < 64)
    (hc : isInternalNode ((s.node n).slots o)) : entryToNode ((s.node n).slots o) ∈ s.live ∧
      (s.node n).shift = (s.node (entryToNode ((s.node n).slots o))).shift + 6 ∧
      pre (entryToNode ((s.node n).slots o)) = pre n * 64 + o := by
  have hslot : ((itemView s pre).cell n).slot o = .node (entryToNode ((s.node n).slots o)) :=
    decode_eq_node.mpr ⟨hc, rfl⟩
  exact h.wf.child hn ho hslot

/-- A slot that holds an item is a leaf's. -/
theorem leaf (h : Walkable W s pre) (hn : n ∈ s.live) (ho : o < 64) (h0 : (s.node n).slots o ≠ 0)
    (hc : ¬ isInternalNode ((s.node n).slots o)) : (s.node n).shift = 0 :=
  h.wf.leaf n hn o ho _ (decode_item h0 hc)

theorem pos_zero_lt (h : Walkable W s pre) (hn : n ∈ s.live) : slotPos s pre n 0 < 2 ^ W := by
  have hstart := h.start n hn
  have hpos : slotPos s pre n 0 = pre n * 2 ^ ((s.node n).shift + 6) := by
    show (pre n * 2 ^ 6 + 0) * 2 ^ (s.node n).shift = _
    rw [add_zero, pow_add, Nat.mul_assoc, Nat.mul_comm (2 ^ 6)]
  rwa [hpos]

/-- No item at the empty slots that a scan skips. -/
theorem no_item_skip (h : Walkable W s pre) (hn : n ∈ s.live) {o' : ℕ} (ho' : o' ≤ 64)
    (hempty : ∀ d, o ≤ d → d < o' → (s.node n).slots d = 0) (h1 : slotPos s pre n o ≤ i)
    (h2 : i < slotPos s pre n o') (a : ℕ) : ¬ Item s pre i a := by
  obtain ⟨d, hod, hdo, hle, hlt⟩ := exists_slot h1 h2
  exact h.wf.not_holds_empty (by decide) hn (show d < 2 ^ 6 by omega)
    (decode_eq_empty.mpr (hempty d hod hdo)) hle hlt a

/-- The item in a slot of a leaf. -/
theorem item_leaf (h : Walkable W s pre) (hn : n ∈ s.live) (hs : (s.node n).shift = 0) (ho : o < 64)
    (h0 : (s.node n).slots o ≠ 0) : Item s pre (pre n * 64 + o) ((s.node n).slots o) := by
  have hint : ¬ isInternalNode ((s.node n).slots o) := fun hc => by
    have := (h.child hn ho hc).2.1
    omega
  have hitem : ((itemView s pre).cell n).slot o = .item ((s.node n).slots o) := decode_item h0 hint
  have hhas := h.wf.holds_pos hn ho hitem
  have hpos : pos 6 (itemView s pre) n o = pre n * 64 + o := by
    show (pre n * 2 ^ 6 + o) * 2 ^ (s.node n).shift = _
    rw [hs, pow_zero, Nat.mul_one]
    rfl
  rwa [hpos] at hhas

/-- The leaf ends at a word, or at the first number after the words. -/
theorem leaf_end (h : Walkable W s pre) (hW : 6 ≤ W) (hn : n ∈ s.live) (hs : (s.node n).shift = 0) :
    pre n * 64 + 64 ≤ 2 ^ W := by
  have hstart := h.start n hn
  rw [hs, zero_add] at hstart
  have hdvd : 2 ^ 6 ∣ 2 ^ W := Nat.pow_dvd_pow 2 hW
  omega

/-- Items are at words. -/
theorem item_lt (h : Walkable W s pre) (hW : 6 ≤ W) {a : ℕ} (ha : Item s pre i a) : i < 2 ^ W := by
  rcases ha with ⟨n, hn, hs, hp, -⟩ | ⟨-, rfl⟩
  · have hend := h.leaf_end hW hn hs
    have hp' : pre n = i / 64 := hp
    omega
  · positivity

theorem item_unique (h : Walkable W s pre) {a b : ℕ} (ha : Item s pre i a) (hb : Item s pre i b) :
    a = b := h.wf.holds_unique (by decide) ha hb

theorem item_root (h : Walkable W s pre) (hr : ¬ isInternalNode s.rnode) {a : ℕ} :
    Item s pre i a ↔ (s.rnode = a ∧ a ≠ 0) ∧ i = 0 := by
  have hroot : ∀ r, (itemView s pre).root ≠ .node r := fun r hr' => hr (decode_eq_node.mp hr').1
  have hlive := h.wf.live_empty (by decide) hroot
  unfold Item Holds
  rw [hlive]
  simp only [Finset.notMem_empty, false_and, exists_false, false_or]
  refine and_congr_left fun _ => ?_
  show decode s.rnode = .item a ↔ _
  rw [decode_eq_item]
  constructor
  · rintro ⟨rfl, h0, -⟩; exact ⟨rfl, h0⟩
  · rintro ⟨rfl, h0⟩; exact ⟨rfl, h0, hr⟩

/-- Nothing lies beyond the largest index. -/
theorem beyond (h : Walkable W s pre) (hi : i < 2 ^ W) (hgt : (radixTreeLoadRoot W s).1 < i) {j : ℕ}
    (hij : i ≤ j) (a : ℕ) : ¬ Item s pre j a := by
  intro ha
  have hmax := lt_maxindex (s := s) hi
  by_cases hr : isInternalNode s.rnode
  · rw [if_pos hr] at hmax
    have hroot : (itemView s pre).root = .node (entryToNode s.rnode) := decode_eq_node.mpr ⟨hr, rfl⟩
    have hlt : j < 2 ^ ((s.node (entryToNode s.rnode)).shift + 6) :=
      h.wf.lt_of_holds (by decide) hroot ha
    exact absurd (hmax.mpr (hij.trans_lt hlt)) (by omega)
  · rw [if_neg hr] at hmax
    have h0 := ((h.item_root hr).mp ha).2
    exact absurd (hmax.mpr (by omega)) (by omega)

end Walkable

/-! ### Moving the index -/

theorem shiftMaxindex_eq (W shift : ℕ) : shiftMaxindex W shift = 2 ^ min (shift + 6) W - 1 := by
  have hsize : RADIX_TREE_MAP_SIZE * 2 ^ shift = 2 ^ (shift + 6) := by
    rw [RADIX_TREE_MAP_SIZE, pow_add]
    ring
  have hW : 0 < 2 ^ W := by positivity
  have hpos : 0 < 2 ^ (shift + 6) := by positivity
  unfold shiftMaxindex
  rw [hsize]
  by_cases hs : shift + 6 < W
  · have hlt : 2 ^ (shift + 6) < 2 ^ W := Nat.pow_lt_pow_right (by decide) hs
    rw [min_eq_left hs.le, Nat.mod_eq_of_lt hlt,
      show 2 ^ (shift + 6) + 2 ^ W - 1 = 2 ^ (shift + 6) - 1 + 2 ^ W by omega, Nat.add_mod_right,
      Nat.mod_eq_of_lt (by omega)]
  · have hdvd : 2 ^ W ∣ 2 ^ (shift + 6) := Nat.pow_dvd_pow 2 (by omega)
    rw [min_eq_right (not_lt.mp hs), Nat.mod_eq_zero_of_dvd hdvd, zero_add, Nat.mod_eq_of_lt (by omega)]

/-- The mask of `node_maxindex` keeps the digits above those of the node. -/
theorem and_maxindex {i shift : ℕ} (hi : i < 2 ^ W) : i &&& notW W (shiftMaxindex W shift) =
    2 ^ (shift + 6) * (i / 2 ^ (shift + 6)) := by
  rw [shiftMaxindex_eq, and_notW (min_le_right _ _) hi]
  rcases Nat.le_total (shift + 6) W with hs | hs
  · rw [min_eq_left hs]
  · have hle : 2 ^ W ≤ 2 ^ (shift + 6) := Nat.pow_le_pow_right (by decide) hs
    rw [min_eq_right hs, Nat.div_eq_of_lt hi, Nat.div_eq_of_lt (hi.trans_le hle), Nat.mul_zero,
      Nat.mul_zero]

/-- **`next_index`**: the position of a slot. -/
theorem nextIndex_eq {n i : ℕ} (hi : i < 2 ^ W) (hn : pre n = i / 2 ^ ((s.node n).shift + 6)) (o : ℕ) :
    nextIndex W s i n o = slotPos s pre n o % 2 ^ W := by
  have hpos : slotPos s pre n o =
      2 ^ ((s.node n).shift + 6) * (i / 2 ^ ((s.node n).shift + 6)) + o * 2 ^ (s.node n).shift := by
    rw [← hn, pow_add]
    show (pre n * 2 ^ 6 + o) * 2 ^ (s.node n).shift = _
    ring
  unfold nextIndex nodeMaxindex
  rw [and_maxindex hi, hpos, Nat.add_mod_mod]

/-! ### `radix_tree_next_chunk` -/

/-- The iterator is at the item of an index. -/
inductive AtItem (W : ℕ) (s : Tree) (pre : ℕ → ℕ) : (i : ℕ) → Iter → Slot → Prop
  | leaf {iter : Iter} {n o : ℕ} (hn : n ∈ s.live) (hs : (s.node n).shift = 0) (ho : o < 64)
      (h0 : (s.node n).slots o ≠ 0) (hindex : iter.index = pre n * 64 + o)
      (hnext : iter.nextIndex = (pre n * 64 + 64) % 2 ^ W) :
      AtItem W s pre (pre n * 64 + o) iter (.slots n o)
  | root {iter : Iter} (hr : ¬ isInternalNode s.rnode) (h0 : s.rnode ≠ 0) (hindex : iter.index = 0)
      (hnext : iter.nextIndex = 1) : AtItem W s pre 0 iter .rnode

theorem AtItem.index_eq {i : ℕ} {iter : Iter} {slot : Slot} (h : AtItem W s pre i iter slot) :
    iter.index = i := by
  cases h with
  | leaf _ _ _ _ hindex => exact hindex
  | root _ _ hindex => exact hindex

theorem AtItem.item (hw : Walkable W s pre) {i : ℕ} {iter : Iter} {slot : Slot}
    (h : AtItem W s pre i iter slot) : Item s pre i (s.getSlot slot) := by
  cases h with
  | leaf hn hs ho h0 => exact hw.item_leaf hn hs ho h0
  | root hr h0 => exact (hw.item_root hr).mpr ⟨⟨rfl, h0⟩, rfl⟩

/-- What a search for the first item from `lo` on gives. -/
inductive FirstItem (W : ℕ) (s : Tree) (pre : ℕ → ℕ) (lo : ℕ) : Iter × Option Slot → Prop
  | found {i : ℕ} {iter : Iter} {slot : Slot} (h : AtItem W s pre i iter slot) (hlo : lo ≤ i)
      (hno : ∀ j a, lo ≤ j → j < i → ¬ Item s pre j a) : FirstItem W s pre lo (iter, some slot)
  | nothing {iter : Iter} (hno : ∀ j a, lo ≤ j → ¬ Item s pre j a) : FirstItem W s pre lo (iter, none)

/-- The end of `radix_tree_next_chunk` at an item. -/
theorem chunkDone_atItem (hW : 6 < W) {index n o : ℕ} (iter : Iter)
    (hn : n ∈ s.live) (hs : (s.node n).shift = 0) (ho : o < 64) (h0 : (s.node n).slots o ≠ 0)
    (hi : index < 2 ^ W) (hp : pre n = index / 64) : ∃ iter',
      chunkDone W past none s iter index n o = (iter', some (.slots n o)) ∧
      AtItem W s pre (pre n * 64 + o) iter' (.slots n o) := by
  have hmax : nodeMaxindex W s n = 2 ^ 6 - 1 := by
    unfold nodeMaxindex
    rw [shiftMaxindex_eq, hs, min_eq_left (by omega)]
  have h64 : 2 ^ 6 < 2 ^ W := Nat.pow_lt_pow_right (by decide) hW
  have hindex : (index &&& notW W (nodeMaxindex W s n)) ||| (o * 2 ^ (s.node n).shift % 2 ^ W) =
      pre n * 64 + o := by
    unfold nodeMaxindex
    rw [and_maxindex hi, hs, pow_zero, Nat.mul_one, Nat.mod_eq_of_lt (by omega), hp, zero_add,
      ← Nat.two_pow_add_eq_or_of_lt (show o < 2 ^ 6 from ho), Nat.mul_comm]
    rfl
  have hnext : (index ||| nodeMaxindex W s n) + 1 = pre n * 64 + 64 := by
    have hdiv := Nat.div_add_mod index (2 ^ 6)
    have hmod : index % 2 ^ 6 < 2 ^ 6 := Nat.mod_lt _ (by decide)
    have hlow : index % 2 ^ 6 ||| (2 ^ 6 - 1) = 2 ^ 6 - 1 := by
      apply Nat.eq_of_testBit_eq
      intro k
      rw [Nat.testBit_or, Nat.testBit_mod_two_pow, Nat.testBit_two_pow_sub_one]
      by_cases hk : k < 6 <;> simp [hk]
    rw [hmax]
    calc (index ||| (2 ^ 6 - 1)) + 1
        = (2 ^ 6 * (index / 2 ^ 6) ||| (index % 2 ^ 6 ||| (2 ^ 6 - 1))) + 1 := by
          rw [← Nat.or_assoc, ← Nat.two_pow_add_eq_or_of_lt hmod, hdiv]
      _ = pre n * 64 + 64 := by
          rw [hlow, ← Nat.two_pow_add_eq_or_of_lt (by decide), hp]
          omega
  unfold chunkDone
  dsimp only
  refine ⟨_, rfl, .leaf hn hs ho h0 hindex ?_⟩
  rw [hnext]

/-- The measure of the loop: the indices that are left, then the height of the node. -/
def chunkCost (W : ℕ) (s : Tree) (index n : ℕ) : ℕ :=
  (2 ^ W - index) * (W + 1) + (s.node n).shift

/-- **The loop of `radix_tree_next_chunk`**, in a node that has the digits of the index. -/
theorem nextChunkLoop_spec (hw : Walkable W s pre) (hW : 6 < W) (fuel : ℕ) {lo : ℕ} (iter : Iter) :
    ∀ (k index child : ℕ), entryToNode child ∈ s.live →
      pre (entryToNode child) = index / 2 ^ ((s.node (entryToNode child)).shift + 6) →
      index < 2 ^ W → lo ≤ index → (∀ j a, lo ≤ j → j < index → ¬ Item s pre j a) →
      chunkCost W s index (entryToNode child) < k →
      ∃ r, nextChunkLoop W past none fuel s iter k index child = some r ∧ FirstItem W s pre lo r
  | 0, _, _, _, _, _, _, _, hk => absurd hk (Nat.not_lt_zero _)
  | k + 1, index, child, hn, hp, hi, hlo, hno, hk => by
    rw [nextChunkLoop]
    generalize entryToNode child = n at hn hp hk ⊢
    dsimp only
    have hsn := hw.shift n hn
    -- starting again at a larger index
    have hrestart : ∀ index', index < index' → index' < 2 ^ W →
        (∀ j a, lo ≤ j → j < index' → ¬ Item s pre j a) →
        ∃ r, chunkRestart W s iter (nextChunkLoop W past none fuel s iter k) index' = some r ∧
          FirstItem W s pre lo r := by
      intro index' hlt hi' hno'
      unfold chunkRestart
      dsimp only
      by_cases hgt : index' > (radixTreeLoadRoot W s).1
      · rw [if_pos hgt]
        refine ⟨_, rfl, .nothing fun j a hj ha => ?_⟩
        rcases Nat.lt_or_ge j index' with h | h
        · exact hno' j a hj h ha
        · exact hw.beyond hi' hgt h a ha
      · rw [if_neg hgt]
        have hr : isInternalNode s.rnode := by
          by_contra hr
          have hlive := hw.wf.live_empty (by decide) fun r hr' => hr (decode_eq_node.mp hr').1
          have hn' : n ∈ (itemView s pre).live := hn
          rw [hlive] at hn'
          exact absurd hn' (Finset.notMem_empty n)
        have hz : s.rnode ≠ 0 := by
          rintro hz
          rw [hz] at hr
          cases hr
        rw [if_neg hz, if_neg (not_not.mpr hr)]
        obtain ⟨hl, hp0⟩ := hw.root hr
        have hmax := lt_maxindex (s := s) hi'
        rw [if_pos hr] at hmax
        refine nextChunkLoop_spec hw hW fuel iter k index' s.rnode hl ?_ hi' (hlo.trans hlt.le) hno' ?_
        · rw [hp0, Nat.div_eq_of_lt (hmax.mp (not_lt.mp hgt))]
        · have hsr := hw.shift _ hl
          unfold chunkCost at hk ⊢
          obtain ⟨d, hd⟩ : ∃ d, 2 ^ W - index = 2 ^ W - index' + (d + 1) :=
            ⟨index' - index - 1, by omega⟩
          have hmul : 1 * (W + 1) ≤ (d + 1) * (W + 1) := Nat.mul_le_mul_right _ (by omega)
          rw [hd, Nat.add_mul] at hk
          omega
    -- going down, at an index that may be larger
    have henter : ∀ index' o, index ≤ index' → o < 64 → slotPos s pre n o ≤ index' →
        index' < slotPos s pre n (o + 1) → index' < 2 ^ W →
        (∀ j a, lo ≤ j → j < index' → ¬ Item s pre j a) → (s.node n).slots o ≠ 0 →
        ∃ r, (if (s.node n).slots o = RADIX_TREE_RETRY ∨ ¬ isInternalNode ((s.node n).slots o) then
            some (chunkDone W past none s iter index' n o)
          else nextChunkLoop W past none fuel s iter k index' ((s.node n).slots o)) = some r ∧
          FirstItem W s pre lo r := by
      intro index' o hle ho h1 h2 hi' hno' h0
      obtain ⟨hoff, hdig⟩ := digits_of_pos (b := 6) (T := itemView s pre) ho h1 h2
      by_cases hc : isInternalNode ((s.node n).slots o)
      · obtain ⟨hl, hs, hpc⟩ := hw.child hn ho hc
        have hne : (s.node n).slots o ≠ RADIX_TREE_RETRY := by
          intro heq
          rw [heq] at hl
          exact (hw.addr _ hl).1 rfl
        rw [if_neg (not_or.mpr ⟨hne, not_not.mpr hc⟩)]
        refine nextChunkLoop_spec hw hW fuel iter k index' _ hl ?_ hi' (hlo.trans hle) hno' ?_
        · have hd : index' / 2 ^ (s.node n).shift = pre n * 64 + o := by
            have hdiv := Nat.div_add_mod (index' / 2 ^ (s.node n).shift) 64
            have hpre : pre n = index' / 2 ^ (s.node n).shift / 64 := by
              rw [Nat.div_div_eq_div_mul, show 2 ^ (s.node n).shift * 64 = 2 ^ ((s.node n).shift + 6) from
                (pow_add 2 (s.node n).shift 6).symm]
              exact hdig
            have hoff' : index' / 2 ^ (s.node n).shift % 64 = o := hoff
            omega
          rw [hpc, ← hs, hd]
        · have hmul := Nat.mul_le_mul_right (W + 1) (Nat.sub_le_sub_left hle (2 ^ W))
          unfold chunkCost at hk ⊢
          omega
      · rw [if_pos (Or.inr hc)]
        have hs := hw.leaf hn ho h0 hc
        have hp' : pre n = index' / 64 := by
          have hd : ((itemView s pre).cell n).shift = 0 := hs
          rw [hd] at hdig
          exact hdig
        have hidx : index' = pre n * 64 + o := by
          have hd : ((itemView s pre).cell n).shift = 0 := hs
          rw [hd, pow_zero, Nat.div_one] at hoff
          have hoff' : index' % 64 = o := hoff
          omega
        obtain ⟨iter', heq, hat⟩ := @chunkDone_atItem W s pre past hW _ _ _ iter hn hs ho h0 hi' hp'
        rw [heq]
        exact ⟨_, rfl, .found hat (hidx ▸ hlo.trans hle) (hidx ▸ hno')⟩
    have hdesc : descendOffset s n index = index / 2 ^ (s.node n).shift % 64 := rfl
    have ho : descendOffset s n index < 64 := hdesc ▸ Nat.mod_lt _ (by decide)
    obtain ⟨hp1, hp2⟩ := pos_of_digits (b := 6) (T := itemView s pre) (n := n) (i := index) hp
    have hoff : index / 2 ^ ((itemView s pre).cell n).shift % 2 ^ 6 = descendOffset s n index := rfl
    rw [hoff] at hp1 hp2
    generalize descendOffset s n index = o at ho hp1 hp2 ⊢
    by_cases h0 : (s.node n).slots o = 0
    · have hhole : isHole W none s n o ((s.node n).slots o) = true := by
        show ((s.node n).slots o == 0) = true
        rw [h0]
        rfl
      rw [if_pos hhole]
      unfold afterHole
      dsimp only
      simp only [Option.bind_eq_bind, Option.bind_some]
      obtain ⟨hge, hle64, hempty, hused⟩ :=
        Bitmap.next_spec (p := fun o => (s.node n).slots o != 0) (show o + 1 ≤ 64 from ho)
      have hsize : RADIX_TREE_MAP_SIZE = 64 := rfl
      rw [hsize]
      generalize Bitmap.next (fun o => (s.node n).slots o != 0) 64 (o + 1) = o' at *
      have hskip : ∀ j a, lo ≤ j → j < slotPos s pre n o' → ¬ Item s pre j a := by
        intro j a h1 h2
        rcases Nat.lt_or_ge j index with h | h
        · exact hno j a h1 h
        · refine hw.no_item_skip hn hle64 (fun d hd1 hd2 => ?_) (hp1.trans h) h2 a
          rcases Nat.eq_or_lt_of_le hd1 with rfl | hd1
          · exact h0
          · simpa using hempty d hd1 hd2
      have hgt : index < slotPos s pre n o' := hp2.trans_le (pos_mono n hge)
      have hend := pos_end (b := 6) (T := itemView s pre) (hw.pos_zero_lt hn)
      -- the position of the next slot in use, or the end of the node
      have hwrap : slotPos s pre n o' < 2 ^ W ∨
          slotPos s pre n o' % 2 ^ W = 0 ∧ 2 ^ W ≤ slotPos s pre n o' := by
        rcases Nat.eq_or_lt_of_le hle64 with rfl | hlt
        · have hend' : slotPos s pre n 64 ≤ 2 ^ W ∨ slotPos s pre n 64 % 2 ^ W = 0 := hend
          rcases Nat.lt_or_ge (slotPos s pre n 64) (2 ^ W) with h | h
          · exact Or.inl h
          · refine Or.inr ⟨?_, h⟩
            rcases hend' with h' | h'
            · rw [le_antisymm h' h, Nat.mod_self]
            · exact h'
        · left
          have hu : (s.node n).slots o' ≠ 0 := by simpa using hused hlt
          by_cases hc : isInternalNode ((s.node n).slots o')
          · obtain ⟨hl, -, -⟩ := hw.child hn hlt hc
            have hpc := hw.wf.pos_child (o := o') hn (show o' < 2 ^ 6 from hlt)
              (decode_eq_node.mpr ⟨hc, rfl⟩)
            have hlt' := hw.pos_zero_lt hl
            unfold slotPos at hlt' ⊢
            rwa [hpc] at hlt'
          · have hs := hw.leaf hn hlt hu hc
            have hle := hw.leaf_end hW.le hn hs
            show (pre n * 2 ^ 6 + o') * 2 ^ (s.node n).shift < 2 ^ W
            rw [hs, pow_zero, Nat.mul_one]
            omega
      rw [nextIndex_eq hi hp]
      rcases hwrap with hword | ⟨hz, hbig⟩
      · rw [Nat.mod_eq_of_lt hword, if_neg (by omega)]
        rcases Nat.eq_or_lt_of_le hle64 with rfl | hlt
        · rw [if_pos rfl]
          exact hrestart _ hgt hword hskip
        · have hu : (s.node n).slots o' ≠ 0 := by simpa using hused hlt
          rw [if_neg hlt.ne, if_neg hu]
          exact henter _ o' hgt.le hlt le_rfl (pos_lt n (Nat.lt_succ_self o')) hword hskip hu
      · rw [hz, if_pos rfl]
        refine ⟨_, rfl, .nothing fun j a hj ha => ?_⟩
        rcases Nat.lt_or_ge j (slotPos s pre n o') with h | h
        · exact hskip j a hj h ha
        · exact absurd (hw.item_lt hW.le ha) (by omega)
    · have hhole : ¬ isHole W none s n o ((s.node n).slots o) = true := by
        show ¬ ((s.node n).slots o == 0) = true
        simpa using h0
      rw [if_neg hhole, if_neg h0]
      exact henter index o le_rfl ho hp1 hp2 hi hno h0

/-- The iterator stands before an index; past the last one `next_index` has wrapped. -/
inductive Resume (W : ℕ) : ℕ → Iter → Prop
  | word {lo : ℕ} {iter : Iter} (hnext : iter.nextIndex = lo) (hlo : lo < 2 ^ W)
      (h0 : lo = 0 → iter.index = 0) : Resume W lo iter
  | done {iter : Iter} (hnext : iter.nextIndex = 0) (h0 : iter.index ≠ 0) : Resume W (2 ^ W) iter

/-- Enough rounds for a search. -/
def chunkFuel (W : ℕ) : ℕ := 2 ^ W * (W + 1) + W

/-- **`radix_tree_next_chunk`** without tags finds the first item. -/
theorem radixTreeNextChunk_spec (hw : Walkable W s pre) (hW : 6 < W) {fuel lo : ℕ} {iter : Iter}
    (hf : chunkFuel W ≤ fuel) (h : Resume W lo iter) :
    ∃ r, radixTreeNextChunk W past none fuel s iter = some r ∧ FirstItem W s pre lo r := by
  have hnone : ¬ ((none : Option ℕ).any fun tag => ! s.rootTagGet tag) = true := by simp
  unfold radixTreeNextChunk
  rw [if_neg hnone]
  cases h with
  | done hnext h0 =>
    rw [if_pos ⟨hnext, h0⟩]
    exact ⟨_, rfl, .nothing fun j a hj ha => absurd (hw.item_lt hW.le ha) (by omega)⟩
  | word hnext hlo h0 =>
    rw [if_neg fun h => h.2 (h0 (hnext.symm.trans h.1)), hnext]
    have hno : ∀ j a, lo ≤ j → j < lo → ¬ Item s pre j a := fun j a h1 h2 => absurd h1 (by omega)
    have hmax := lt_maxindex (s := s) hlo
    unfold chunkRestart
    dsimp only
    by_cases hgt : lo > (radixTreeLoadRoot W s).1
    · rw [if_pos hgt]
      exact ⟨_, rfl, .nothing fun j a hj ha => hw.beyond hlo hgt hj a ha⟩
    · rw [if_neg hgt]
      by_cases hz : s.rnode = 0
      · rw [if_pos hz]
        have hr : ¬ isInternalNode s.rnode := by
          rw [hz]
          decide
        refine ⟨_, rfl, .nothing fun j a _ ha => ?_⟩
        obtain ⟨⟨h1, h2⟩, -⟩ := (hw.item_root hr).mp ha
        exact h2 (h1.symm.trans hz)
      · rw [if_neg hz]
        by_cases hr : isInternalNode s.rnode
        · rw [if_neg (not_not.mpr hr)]
          rw [if_pos hr] at hmax
          obtain ⟨hl, hp0⟩ := hw.root hr
          have hsr := hw.shift _ hl
          refine nextChunkLoop_spec hw hW fuel iter fuel lo s.rnode hl ?_ hlo le_rfl hno ?_
          · rw [hp0, Nat.div_eq_of_lt (hmax.mp (not_lt.mp hgt))]
          · have hmul := Nat.mul_le_mul_right (W + 1) (Nat.sub_le (2 ^ W) lo)
            unfold chunkFuel at hf
            unfold chunkCost
            omega
        · rw [if_pos hr]
          rw [if_neg hr] at hmax
          obtain rfl := hmax.mp (not_lt.mp hgt)
          have hone : ((radixTreeLoadRoot W s).1 + 1) % 2 ^ W = 1 := by
            have h1 : 1 < 2 ^ W := Nat.one_lt_two_pow (by omega)
            unfold radixTreeLoadRoot
            rw [if_neg hr]
            exact Nat.mod_eq_of_lt h1
          rw [hone]
          exact ⟨_, rfl, .found (.root hr hz rfl rfl) le_rfl hno⟩

/-! ### `radix_tree_next_slot` -/

/-- The scan of a leaf, from the slot `o` on. -/
theorem nextSlotLoop_spec (hw : Walkable W s pre) (hW : 6 < W) {n : ℕ} (hn : n ∈ s.live)
    (hs : (s.node n).shift = 0) : ∀ (count o : ℕ) (iter : Iter), o + count = 63 →
    iter.index = pre n * 64 + o → iter.nextIndex = (pre n * 64 + 64) % 2 ^ W →
    (∃ o' iter', nextSlotLoop W s count iter (.slots n o) = .slot iter' (.slots n o') ∧ o < o' ∧
      AtItem W s pre (pre n * 64 + o') iter' (.slots n o') ∧
      ∀ d, o < d → d < o' → (s.node n).slots d = 0) ∨
    (∃ iter', nextSlotLoop W s count iter (.slots n o) = .null iter' ∧
      iter'.index = pre n * 64 + 63 ∧ iter'.nextIndex = (pre n * 64 + 64) % 2 ^ W ∧
      ∀ d, o < d → d < 64 → (s.node n).slots d = 0)
  | 0, o, iter, ho, hindex, hnext => by
    obtain rfl : o = 63 := by omega
    exact Or.inr ⟨iter, rfl, hindex, hnext, fun d h1 h2 => absurd h1 (by omega)⟩
  | count + 1, o, iter, ho, hindex, hnext => by
    have hend := hw.leaf_end hW.le hn hs
    have hadd : slotAdd (.slots n o) 1 = some (.slots n (o + 1)) :=
      if_pos (show o + 1 < 64 by omega)
    have hword : (iter.index + 1) % 2 ^ W = pre n * 64 + (o + 1) := by
      rw [hindex, Nat.mod_eq_of_lt (by omega)]
      rfl
    rw [nextSlotLoop, hadd]
    dsimp only
    rw [hword]
    by_cases h0 : (s.node n).slots (o + 1) = 0
    · have hget : ¬ s.getSlot (.slots n (o + 1)) ≠ 0 := not_not.mpr h0
      rw [if_neg hget]
      have hskip : ∀ {o'}, (∀ d, o + 1 < d → d < o' → (s.node n).slots d = 0) →
          ∀ d, o < d → d < o' → (s.node n).slots d = 0 := by
        intro o' hd d h1 h2
        rcases Nat.eq_or_lt_of_le (show o + 1 ≤ d from h1) with rfl | h1
        · exact h0
        · exact hd d h1 h2
      obtain ⟨o', iter', heq, hlt, hat, hd⟩ | ⟨iter', heq, h1, h2, hd⟩ :=
        nextSlotLoop_spec hw hW hn hs count (o + 1) ⟨pre n * 64 + (o + 1), iter.nextIndex, iter.tags,
          iter.node⟩ (by omega) rfl hnext
      · exact Or.inl ⟨o', iter', heq, by omega, hat, hskip hd⟩
      · exact Or.inr ⟨iter', heq, h1, h2, hskip hd⟩
    · have hget : s.getSlot (.slots n (o + 1)) ≠ 0 := h0
      rw [if_pos hget]
      exact Or.inl ⟨o + 1, _, rfl, Nat.lt_succ_self o, .leaf hn hs (by omega) h0 rfl hnext,
        fun d h1 h2 => absurd h1 (by omega)⟩

/-- Where the iteration stands before the items from `lo` on: at the first of them, or between
chunks. -/
inductive Ready (W : ℕ) (s : Tree) (pre : ℕ → ℕ) (lo : ℕ) : Iter → Option Slot → Prop
  | item {i : ℕ} {iter : Iter} {slot : Slot} (h : AtItem W s pre i iter slot) (hlo : lo ≤ i)
      (hno : ∀ j a, lo ≤ j → j < i → ¬ Item s pre j a) : Ready W s pre lo iter (some slot)
  | chunk {i : ℕ} {iter : Iter} (h : Resume W i iter) (hlo : lo ≤ i)
      (hno : ∀ j a, lo ≤ j → j < i → ¬ Item s pre j a) : Ready W s pre lo iter none

/-- **`radix_tree_next_slot`** without tags, from the item of an index. -/
theorem radixTreeNextSlot_spec (hw : Walkable W s pre) (hW : 7 < W) {i : ℕ} {iter : Iter} {slot : Slot}
    (h : AtItem W s pre i iter slot) :
    (∃ iter' slot', radixTreeNextSlot W none s iter slot = .slot iter' slot' ∧
      Ready W s pre (i + 1) iter' (some slot')) ∨
    (∃ iter', radixTreeNextSlot W none s iter slot = .null iter' ∧
      Ready W s pre (i + 1) iter' none) := by
  have hhalf : 2 ^ W = 2 ^ (W - 1) * 2 := by rw [← pow_succ, Nat.sub_add_cancel (by omega)]
  have h7 : 2 ^ 7 ≤ 2 ^ (W - 1) := Nat.pow_le_pow_right (by decide) (by omega)
  unfold radixTreeNextSlot
  dsimp only
  cases h with
  | @leaf iter n o hn hs ho h0 hindex hnext =>
    have hend := hw.leaf_end (by omega) hn hs
    have hsize : (iter.nextIndex + 2 ^ W - iter.index) % 2 ^ W = 64 - o := by
      rw [hnext, hindex]
      rcases Nat.eq_or_lt_of_le hend with heq | hlt
      · rw [heq, Nat.mod_self, zero_add, Nat.mod_eq_of_lt (by omega)]
        omega
      · rw [Nat.mod_eq_of_lt hlt, show pre n * 64 + 64 + 2 ^ W - (pre n * 64 + o) = 64 - o + 2 ^ W by omega,
          Nat.add_mod_right, Nat.mod_eq_of_lt (by omega)]
    have hcount : (chunkSize W iter - 1).toNat = 63 - o := by
      unfold chunkSize
      rw [hsize]
      dsimp only
      rw [if_pos (by omega)]
      omega
    rw [hcount]
    have hno : ∀ o', o' ≤ 64 → (∀ d, o < d → d < o' → (s.node n).slots d = 0) →
        ∀ j a, pre n * 64 + o + 1 ≤ j → j < pre n * 64 + o' → ¬ Item s pre j a := by
      intro o' ho' hd j a h1 h2
      have hpos : ∀ o, slotPos s pre n o = pre n * 64 + o := fun o => by
        show (pre n * 2 ^ 6 + o) * 2 ^ (s.node n).shift = _
        rw [hs, pow_zero, Nat.mul_one]
        rfl
      refine hw.no_item_skip (o := o + 1) hn ho' (fun d hd1 hd2 => hd d hd1 hd2) ?_ ?_ a
      · rw [hpos]
        exact h1
      · rw [hpos]
        exact h2
    obtain ⟨o', iter', heq, hlt, hat, hd⟩ | ⟨iter', heq, hi', hn', hd⟩ :=
      nextSlotLoop_spec hw (by omega) hn hs (63 - o) o iter (by omega) hindex hnext
    · have ho' : o' ≤ 64 := by
        generalize hi : pre n * 64 + o' = i at hat
        generalize hslot : Slot.slots n o' = slot at hat
        cases hat with
        | leaf _ _ ho => cases hslot; omega
        | root => cases hslot
      exact Or.inl ⟨iter', _, heq, .item hat (by omega) (hno o' ho' hd)⟩
    · refine Or.inr ⟨iter', heq, ?_⟩
      rcases Nat.eq_or_lt_of_le hend with hlast | hlt
      · refine .chunk (.done ?_ (by omega)) (by omega) fun j a h1 h2 => hno 64 le_rfl hd j a h1 (by omega)
        rw [hn', hlast, Nat.mod_self]
      · refine .chunk (@Resume.word W (pre n * 64 + 64) _ ?_ hlt (by omega)) (by omega) (hno 64 le_rfl hd)
        rw [hn', Nat.mod_eq_of_lt hlt]
  | root hr h0 hindex hnext =>
    have hcount : (chunkSize W iter - 1).toNat = 0 := by
      have hsize : (1 + 2 ^ W - 0) % 2 ^ W = 1 := by
        rw [Nat.sub_zero, Nat.add_mod_right, Nat.mod_eq_of_lt (by omega)]
      unfold chunkSize
      rw [hnext, hindex, hsize]
      dsimp only
      rw [if_pos (by omega)]
      rfl
    rw [hcount]
    refine Or.inr ⟨iter, rfl, .chunk (@Resume.word W 1 _ hnext (by omega) (by omega)) le_rfl ?_⟩
    exact fun j a h1 h2 => absurd h1 (by omega)

/-! ### `radix_tree_for_each_slot` -/

theorem forEachTest_spec (hw : Walkable W s pre) (hW : 7 < W) {fuel lo : ℕ} {iter : Iter}
    {slot : Option Slot} (hf : chunkFuel W ≤ fuel) (h : Ready W s pre lo iter slot) :
    ∃ r, forEachTest W past none fuel s iter slot = some r ∧ FirstItem W s pre lo r := by
  cases h with
  | item hat hlo hno => exact ⟨_, rfl, .found hat hlo hno⟩
  | @chunk m iter hres hlo hno =>
    obtain ⟨r, heq, hfirst⟩ := @radixTreeNextChunk_spec _ _ _ past hw (by omega) _ _ _ hf hres
    have hno' : ∀ {i : ℕ}, (∀ j a, m ≤ j → j < i → ¬ Item s pre j a) →
        ∀ j a, lo ≤ j → j < i → ¬ Item s pre j a := by
      intro i hno₂ j a h1 h2
      rcases Nat.lt_or_ge j m with hlt | hge
      · exact hno j a h1 hlt
      · exact hno₂ j a hge h2
    refine ⟨r, heq, ?_⟩
    cases hfirst with
    | found hat hlo' hno₂ => exact .found hat (hlo.trans hlo') (hno' hno₂)
    | nothing hno₂ =>
      exact .nothing fun j a hj => hno' (fun j a h1 _ => hno₂ j a h1) j a hj (Nat.lt_succ_self j)

/-- **`radix_tree_for_each_slot`** ends, and lists every item from the start on once, in order. -/
theorem forEachSlotLoop_spec (hw : Walkable W s pre) (hW : 7 < W) {fuel : ℕ} (hf : chunkFuel W ≤ fuel) :
    ∀ (k lo : ℕ) (iter : Iter) (slot : Option Slot), Ready W s pre lo iter slot → 2 ^ W - lo < k →
      ∃ l, forEachSlotLoop W past none fuel s k iter slot = some (l, true) ∧
        Enumerates (Item s pre) lo l
  | 0, _, _, _, _, hk => absurd hk (Nat.not_lt_zero _)
  | k + 1, lo, iter, slot, h, hk => by
    obtain ⟨r, heq, hfirst⟩ := @forEachTest_spec _ _ _ past hw hW _ _ _ _ hf h
    rw [forEachSlotLoop, heq]
    simp only [Option.bind_eq_bind, Option.bind_some]
    cases hfirst with
    | nothing hno => exact ⟨[], rfl, .nil hno⟩
    | @found i iter slot hat hlo hno =>
      have hitem := hat.item hw
      have hi := hw.item_lt (by omega) hitem
      have hone : ∀ b, Item s pre i b ↔ s.getSlot slot = b :=
        fun b => ⟨fun hb => hw.item_unique hitem hb, fun hb => hb ▸ hitem⟩
      dsimp only
      rw [hat.index_eq]
      obtain ⟨iter', slot', hnext, hready⟩ | ⟨iter', hnext, hready⟩ := radixTreeNextSlot_spec hw hW hat
      · obtain ⟨l, hl, hlist⟩ := forEachSlotLoop_spec hw hW hf k (i + 1) _ _ hready (by omega)
        rw [hnext]
        dsimp only
        rw [hl]
        exact ⟨_, rfl, hlist.cons hlo hone hno⟩
      · obtain ⟨l, hl, hlist⟩ := forEachSlotLoop_spec hw hW hf k (i + 1) _ _ hready (by omega)
        rw [hnext]
        dsimp only
        rw [hl]
        exact ⟨_, rfl, hlist.cons hlo hone hno⟩

end HardStack.Ida.Iterate
