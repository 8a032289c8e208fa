import HardStack.Ida.Model
import HardStack.Lib.Marks
import HardStack.Radix.Insert

/-! # The tagged tree as a trie

`view W s pre` reads the memory as a trie with `2 ^ 6` slots a node. `NULL` may stand for an item here:
a word `0` is an empty slot only where the slot is tagged free. `Inv W Q s pre`: the trie has its shape,
and the tags are summed up from the leaves to the root. An index is `Taken` if the tag of its slot in
a leaf is clear; the tag of any slot then says that some index below it is not taken. -/

namespace HardStack.Ida.Layout

open HardStack.Lib.Trie HardStack.Lib.Word HardStack.Radix.Model HardStack.Ida.Model
open HardStack.Radix.Layout (nodeToEntry_eq isInternalNode_nodeToEntry entryToNode_nodeToEntry
  nodeToEntry_entryToNode addChar_one addChar_neg_one Links SlotOf Reached)

variable {W : ℕ} {Q : ℕ → Bool → Prop} {s : Tree} {pre : ℕ → ℕ}

/-! ### Bits of the tag words -/

/-- The tag `IDR_FREE` of a slot. -/
def freeTag (W : ℕ) (x : Node) (o : ℕ) : Bool := (x.tags IDR_FREE (o / W)).testBit (o % W)

theorem tagGet_eq (n o : ℕ) : tagGet W s n IDR_FREE o = freeTag W (s.node n) o := rfl

theorem ffs_spec {x : ℕ} (h0 : x ≠ 0) (hx : x < 2 ^ W) :
    ffs W x < W ∧ x.testBit (ffs W x) = true ∧ ∀ i < ffs W x, x.testBit i = false := by
  obtain ⟨i, hi⟩ := Nat.exists_testBit_of_ne_zero h0
  have hiW : i < W := by
    by_contra hle
    rw [Nat.testBit_lt_two_pow (hx.trans_le (Nat.pow_le_pow_right (by omega) (by omega)))] at hi
    cases hi
  have hlt : ffs W x < (List.range W).length :=
    List.findIdx_lt_length_of_exists ⟨i, List.mem_range.mpr hiW, hi⟩
  refine ⟨by simpa using hlt, ?_, fun j hj => ?_⟩
  · have hget : x.testBit (List.range W)[ffs W x] = true := List.findIdx_getElem (w := hlt)
    rwa [List.getElem_range] at hget
  · have := List.not_of_lt_findIdx hj
    simpa using this

/-- The least tagged slot from `offset` on, or `64`. -/
structure NextBit (W : ℕ) (x : Node) (offset r : ℕ) : Prop where
  ge : offset ≤ r
  le : r ≤ 64
  before : ∀ o, offset ≤ o → o < r → freeTag W x o = false
  tagged : r < 64 → freeTag W x r = true

/-- No slot from `offset` on is tagged. -/
def NoBit (W : ℕ) (x : Node) (offset : ℕ) : Prop := ∀ o, offset ≤ o → o < 64 → freeTag W x o = false

theorem tagsWord_eq (hW : W = 32 ∨ W = 64) {past : ℕ → ℕ → ℕ} {n idx : ℕ} (hi : idx < 64 / W) :
    tagsWord W past s n IDR_FREE idx = (s.node n).tags IDR_FREE idx := by
  have hl : RADIX_TREE_TAG_LONGS W = 64 / W := by rcases hW with rfl | rfl <;> rfl
  unfold tagsWord
  simp only [IDR_FREE, zero_mul, zero_add, hl, RADIX_TREE_MAX_TAGS]
  rw [if_pos (by omega), Nat.div_eq_of_lt hi, Nat.mod_eq_of_lt hi]

/-- The words that a search may read fit into a word. -/
structure Words (W : ℕ) (past : ℕ → ℕ → ℕ) (s : Tree) (n : ℕ) : Prop where
  tags : ∀ tag idx, (s.node n).tags tag idx < 2 ^ W
  past : ∀ i, past n i < 2 ^ W

theorem tagsWord_lt {past : ℕ → ℕ → ℕ} {n : ℕ} (h : Words W past s n) (tag idx : ℕ) :
    tagsWord W past s n tag idx < 2 ^ W := by
  unfold tagsWord
  dsimp only
  split_ifs
  · exact h.tags _ _
  · exact h.past _

/-- The first word of the search. -/
theorem firstWord_spec (hW : W = 32 ∨ W = 64) {past : ℕ → ℕ → ℕ} {n : ℕ} (offset : ℕ)
    (h : Words W past s n) (ho : offset < 64) :
    let tmp := tagsWord W past s n IDR_FREE (offset / W) / 2 ^ (offset % W)
    (tmp ≠ 0 → NextBit W (s.node n) offset (ffs W tmp + offset)) ∧
      (tmp = 0 → ∀ o, offset ≤ o → o / W = offset / W → freeTag W (s.node n) o = false) := by
  have hWpos : 0 < W := by omega
  have hidx : offset / W < 64 / W := by rcases hW with rfl | rfl <;> omega
  have hword := h.tags IDR_FREE (offset / W)
  rw [tagsWord_eq hW hidx]
  intro tmp
  -- the bits of the shifted word are those of the slots of the same word
  have hbit : ∀ o, offset ≤ o → o / W = offset / W →
      freeTag W (s.node n) o = tmp.testBit (o - offset) := by
    intro o hle hdiv
    have h1 := Nat.div_add_mod o W
    have h2 := Nat.div_add_mod offset W
    rw [hdiv] at h1
    unfold freeTag
    rw [Nat.testBit_div_two_pow, hdiv]
    congr 1
    omega
  constructor
  · intro h0
    obtain ⟨hlt, hset, hbefore⟩ := ffs_spec h0 ((Nat.div_le_self _ _).trans_lt hword)
    have hfit : offset % W + ffs W tmp < W := by
      by_contra hle
      rw [Nat.testBit_div_two_pow, Nat.testBit_lt_two_pow (hword.trans_le
        (Nat.pow_le_pow_right (by omega) (by omega)))] at hset
      cases hset
    have hdiv : ∀ j ≤ ffs W tmp, (j + offset) / W = offset / W := by
      intro j hj
      have h2 := Nat.div_add_mod offset W
      have h3 : (offset % W + j) / W = 0 := Nat.div_eq_of_lt (by omega)
      rw [show j + offset = W * (offset / W) + (offset % W + j) by omega, Nat.mul_add_div hWpos, h3,
        add_zero]
    refine ⟨by omega, ?_, fun o hle hlto => ?_, fun _ => ?_⟩
    · have h2 := Nat.div_add_mod offset W
      rcases hW with rfl | rfl <;> omega
    · have := hdiv (o - offset) (by omega)
      rw [Nat.sub_add_cancel hle] at this
      rw [hbit o hle this]
      exact hbefore _ (by omega)
    · rw [hbit _ (by omega) (hdiv _ le_rfl), Nat.add_sub_cancel]
      exact hset
  · intro h0 o hle hdiv
    rw [hbit o hle hdiv, h0, Nat.zero_testBit]

/-- Past the row of the tag the loop gives whatever the memory there holds. -/
theorem findNextLoop_past {past : ℕ → ℕ → ℕ} {n : ℕ} (h : Words 32 past s n) :
    ∀ {k idx r : ℕ}, findNextLoop 32 past s n IDR_FREE k idx 32 = some r → 32 ≤ r ∧ r < 64
  | 0, _, _, hr => by cases hr
  | k + 1, idx, r, hr => by
    rw [findNextLoop, if_pos (by decide)] at hr
    dsimp only at hr
    by_cases h0 : tagsWord 32 past s n IDR_FREE (idx + 1) = 0
    · rw [if_neg (not_not.mpr h0)] at hr
      exact findNextLoop_past h hr
    · rw [if_pos h0] at hr
      obtain ⟨hlt, -⟩ := ffs_spec h0 (tagsWord_lt h _ _)
      cases hr
      omega

/-- **`radix_tree_find_next_bit`** finds the next tagged slot. With words of 32 bits, a search that
starts in the first word and finds nothing gives some offset of the second word, if it returns. -/
theorem radixTreeFindNextBit_spec (hW : W = 32 ∨ W = 64) {past : ℕ → ℕ → ℕ} {n offset k : ℕ}
    (h : Words W past s n) (hk : 0 < k) (ho : offset ≤ 64) :
    (∃ r, radixTreeFindNextBit W past k s n IDR_FREE offset = some r ∧
      NextBit W (s.node n) offset r) ∨
    (W = 32 ∧ offset < 32 ∧ NoBit W (s.node n) offset ∧
      ∀ r, radixTreeFindNextBit W past k s n IDR_FREE offset = some r → 32 ≤ r ∧ r < 64) := by
  obtain ⟨k, rfl⟩ : ∃ j, k = j + 1 := ⟨k - 1, by omega⟩
  unfold radixTreeFindNextBit
  by_cases hlt : offset < 64
  · rw [if_pos (show offset < RADIX_TREE_MAP_SIZE from hlt)]
    dsimp only
    obtain ⟨hsome, hnone⟩ := firstWord_spec hW _ h hlt
    by_cases h0 : tagsWord W past s n IDR_FREE (offset / W) / 2 ^ (offset % W) = 0
    · rw [if_neg (not_not.mpr h0)]
      have hclear := hnone h0
      rcases hW with rfl | rfl
      · have hmask : (offset + 32) &&& notW 32 (32 - 1) = 32 * ((offset + 32) / 32) :=
          and_notW (W := 32) (k := 5) (by omega) (by omega)
        rw [hmask]
        by_cases hsecond : 32 ≤ offset
        · -- the second word was the last
          have h64 : 32 * ((offset + 32) / 32) = 64 := by omega
          rw [h64, findNextLoop, if_neg (by decide)]
          exact Or.inl ⟨64, rfl, hlt.le, le_rfl, fun o hle ho' => hclear o hle (by omega),
            fun h => absurd h (by omega)⟩
        · have h32 : 32 * ((offset + 32) / 32) = 32 := by omega
          rw [h32, show offset / 32 = 0 by omega]
          obtain ⟨hsome₂, hnone₂⟩ := firstWord_spec (Or.inl rfl) 32 h (by omega)
          by_cases h1 : tagsWord 32 past s n IDR_FREE 1 = 0
          · refine Or.inr ⟨rfl, by omega, fun o hle ho' => ?_, fun r hr => findNextLoop_past h hr⟩
            by_cases ho32 : o < 32
            · exact hclear o hle (by omega)
            · exact hnone₂ (by simpa using h1) o (by omega) (by omega)
          · rw [findNextLoop, if_pos (by decide)]
            dsimp only
            rw [if_pos h1]
            have hb := hsome₂ (by simpa using h1)
            simp only [Nat.reduceDiv, Nat.reduceMod, pow_zero, Nat.div_one] at hb
            refine Or.inl ⟨_, rfl, by omega, hb.le, fun o hle ho' => ?_, hb.tagged⟩
            by_cases ho32 : o < 32
            · exact hclear o hle (by omega)
            · exact hb.before o (by omega) ho'
      · have hmask : (offset + 64) &&& notW 64 (64 - 1) = 64 * ((offset + 64) / 64) :=
          and_notW (W := 64) (k := 6) (by omega) (by omega)
        rw [hmask, show 64 * ((offset + 64) / 64) = 64 by omega, findNextLoop, if_neg (by decide)]
        exact Or.inl ⟨64, rfl, hlt.le, le_rfl, fun o hle ho' => hclear o hle (by omega),
          fun h => absurd h (by omega)⟩
    · rw [if_pos h0]
      exact Or.inl ⟨_, rfl, hsome h0⟩
  · rw [if_neg (show ¬ offset < RADIX_TREE_MAP_SIZE from hlt)]
    exact Or.inl ⟨64, rfl, ho, le_rfl, fun o _ _ => by omega, fun h => absurd h (by omega)⟩

/-! ### The view -/

/-- What a word in a slot means, with the tag of the slot. -/
def entryOf (w : ℕ) (tag : Bool) : Entry ℕ ℕ :=
  if isInternalNode w then .node (entryToNode w)
  else if w = 0 ∧ tag = true then .empty else .item w

theorem entryOf_eq_node {w n : ℕ} {tag : Bool} :
    entryOf w tag = .node n ↔ isInternalNode w ∧ n = entryToNode w := by
  unfold entryOf
  split_ifs with h0 h1 <;> simp [h0, eq_comm]

theorem entryOf_eq_empty {w : ℕ} {tag : Bool} : entryOf w tag = .empty ↔ w = 0 ∧ tag = true := by
  unfold entryOf
  split_ifs with h0 h1
  · simp only [false_iff, not_and]
    rintro rfl
    cases h0
  · simp [h1]
  · simp [h1]

theorem entryOf_eq_item {w a : ℕ} {tag : Bool} :
    entryOf w tag = .item a ↔ w = a ∧ ¬ isInternalNode w ∧ (w ≠ 0 ∨ tag = false) := by
  unfold entryOf
  split_ifs with h0 h1
  · simp [h0]
  · simp [h1]
  · simp only [Entry.item.injEq, h0, not_false_eq_true, true_and, iff_self_and]
    rintro -
    by_cases hw : w = 0
    · exact Or.inr (by simpa [hw] using h1)
    · exact Or.inl hw

theorem entryOf_nodeToEntry {n : ℕ} (h : 4 ∣ n) (tag : Bool) :
    entryOf (nodeToEntry n) tag = .node n :=
  entryOf_eq_node.mpr ⟨isInternalNode_nodeToEntry h, (entryToNode_nodeToEntry h).symm⟩

def viewCell (W : ℕ) (x : Node) (pre : ℕ) : Cell ℕ ℕ where
  shift := x.shift
  offset := x.offset
  count := x.count
  parent := if x.parent = 0 then none else some x.parent
  slot := fun o => if o < 64 then entryOf (x.slots o) (freeTag W x o) else .empty
  pre := pre

def view (W : ℕ) (s : Tree) (pre : ℕ → ℕ) : Store ℕ ℕ where
  root := entryOf s.rnode (s.rootTagGet IDR_FREE)
  live := s.live
  cell := fun n => viewCell W (s.node n) (pre n)

theorem slot_view {n o : ℕ} (ho : o < 64) : ((view W s pre).cell n).slot o =
    entryOf ((s.node n).slots o) (freeTag W (s.node n) o) := if_pos ho

/-- A slot that holds a node. -/
theorem slot_node {n o m : ℕ} (ho : o < 64) : ((view W s pre).cell n).slot o = .node m ↔
    isInternalNode ((s.node n).slots o) ∧ m = entryToNode ((s.node n).slots o) := by
  rw [slot_view ho, entryOf_eq_node]

/-- The tags of the nodes. -/
def marks (W : ℕ) (s : Tree) (n o : ℕ) : Bool := freeTag W (s.node n) o

/-- The shape of the tree, without its tags: a shift of `30` covers the ids of an `int`. The words and
tags of the slots without a node satisfy `Q`. -/
structure Shape (W : ℕ) (Q : ℕ → Bool → Prop) (s : Tree) (pre : ℕ → ℕ) : Prop where
  wf : Wf 6 (view W s pre)
  addr : ∀ n ∈ s.live, n ≠ 0 ∧ 4 ∣ n
  shift : ∀ n ∈ s.live, (s.node n).shift ≤ 30
  words : ∀ n ∈ s.live, ∀ tag idx, (s.node n).tags tag idx < 2 ^ W
  idr : s.isIdr
  mask : s.gfpMask < 2 ^ 32
  slot : ∀ n ∈ s.live, ∀ o < 64, ¬ isInternalNode ((s.node n).slots o) →
    Q ((s.node n).slots o) (freeTag W (s.node n) o)
  root : ¬ isInternalNode s.rnode → Q s.rnode (s.rootTagGet IDR_FREE)

/-- **The invariant** of the tree of an IDR, or of an IDA. -/
structure Inv (W : ℕ) (Q : ℕ → Bool → Prop) (s : Tree) (pre : ℕ → ℕ) : Prop extends
    Shape W Q s pre where
  sum : Summed 6 (view W s pre) (marks W s) (s.rootTagGet IDR_FREE)

/-- The content of the tree. -/
def Has (W : ℕ) (s : Tree) (pre : ℕ → ℕ) (i a : ℕ) : Prop := Holds 6 (view W s pre) i a

/-- The tag of the index is clear. -/
def Taken (W : ℕ) (s : Tree) (pre : ℕ → ℕ) (i : ℕ) : Prop :=
  Closed 6 (view W s pre) (marks W s) i ∨
    ¬ isInternalNode s.rnode ∧ s.rootTagGet IDR_FREE = false ∧ i = 0

theorem marksEmpty : MarksEmpty 6 (view W s pre) (marks W s) := by
  intro n _ o ho h
  rw [slot_view ho] at h
  exact (entryOf_eq_empty.mp h).2

namespace Shape

variable {n o : ℕ}

theorem count_eq (h : Shape W Q s pre) (hn : n ∈ s.live) :
    (s.node n).count = (viewCell W (s.node n) (pre n)).size 6 := h.wf.count n hn

theorem count_le (h : Shape W Q s pre) (hn : n ∈ s.live) : (s.node n).count ≤ 64 := by
  rw [h.count_eq hn]
  exact Cell.size_le 6 _

theorem links (h : Shape W Q s pre) : Links s pre where
  addr := h.addr
  root hr := by
    have hroot : (view W s pre).root = .node (entryToNode s.rnode) := entryOf_eq_node.mpr ⟨hr, rfl⟩
    obtain ⟨hl, hp⟩ := h.wf.root_node _ hroot
    refine ⟨hl, ?_, (h.wf.top _ hl hp).2.1⟩
    by_contra h0
    simp [view, viewCell, h0] at hp
  child n hn o ho hc := by
    exact h.wf.child hn ho ((slot_node ho).mpr ⟨hc, rfl⟩)

/-- Without a node at the root there are no nodes. -/
theorem live_empty (h : Shape W Q s pre) (hr : ¬ isInternalNode s.rnode) : s.live = ∅ :=
  h.wf.live_empty (by omega) fun _ hroot => hr (entryOf_eq_node.mp hroot).1

/-- With a node in use there is one at the root. -/
theorem root_internal (h : Shape W Q s pre) (hn : n ∈ s.live) : isInternalNode s.rnode := by
  by_contra hr
  rw [h.live_empty hr] at hn
  exact absurd hn (by simp)

/-- A slot that holds no node, above the leaves, is empty. -/
theorem empty_of_inner (h : Shape W Q s pre) (hn : n ∈ s.live) (ho : o < 64)
    (hs : (s.node n).shift ≠ 0) (hslot : ¬ isInternalNode ((s.node n).slots o)) :
    (s.node n).slots o = 0 ∧ freeTag W (s.node n) o = true := by
  refine entryOf_eq_empty.mp ?_
  cases he : entryOf ((s.node n).slots o) (freeTag W (s.node n) o) with
  | empty => rfl
  | item a => exact absurd (h.wf.leaf n hn o ho a ((slot_view ho).trans he)) hs
  | node m => exact absurd (entryOf_eq_node.mp he).1 hslot

/-- A slot of a leaf holds no node. -/
theorem leaf_slot (h : Shape W Q s pre) (hn : n ∈ s.live) (ho : o < 64) (hs : (s.node n).shift = 0) :
    ¬ isInternalNode ((s.node n).slots o) := by
  intro hint
  have := (h.links.child n hn o ho hint).2.1
  omega

theorem taken_iff_closed (h : Shape W Q s pre) (hn : n ∈ s.live) {i : ℕ} :
    Taken W s pre i ↔ Closed 6 (view W s pre) (marks W s) i := by
  refine or_iff_left ?_
  rintro ⟨hr, -⟩
  exact hr (h.root_internal hn)

end Shape

/-! ### What a tag means -/

/-- **A tag is set** exactly where some index below the slot is not taken. -/
theorem Inv.tag_iff (h : Inv W Q s pre) {n o : ℕ} (hn : n ∈ s.live) (ho : o < 64) :
    freeTag W (s.node n) o = true ↔
      ∃ i, i / 2 ^ (s.node n).shift = pre n * 64 + o ∧ ¬ Taken W s pre i := by
  simp only [h.taken_iff_closed hn]
  exact h.sum.mark_iff h.wf (by omega) marksEmpty hn ho

/-- Below a slot without the tag every index is taken. -/
theorem Inv.taken_of_clear (h : Inv W Q s pre) {n o i : ℕ} (hs : SlotOf s pre i n o)
    (ht : freeTag W (s.node n) o = false) : Taken W s pre i := by
  by_contra hfree
  have hset := (h.tag_iff hs.live hs.offset_lt).mpr ⟨i, ?_, hfree⟩
  · rw [ht] at hset
    cases hset
  · rw [hs.digits, pow_add, ← Nat.div_div_eq_div_mul, hs.offset]
    exact (Nat.div_add_mod' _ _).symm

theorem Inv.root_tag_iff (h : Inv W Q s pre) (hr : isInternalNode s.rnode) :
    s.rootTagGet IDR_FREE = true ↔
      ∃ i < 2 ^ ((s.node (entryToNode s.rnode)).shift + 6), ¬ Taken W s pre i := by
  have hl := (h.links.root hr).1
  simp only [h.taken_iff_closed hl]
  exact h.sum.top_iff h.wf (by omega) marksEmpty (entryOf_eq_node.mpr ⟨hr, rfl⟩)

/-- What the slot of an index says, if it holds no node. -/
theorem Shape.has_iff (h : Shape W Q s pre) {i n o a : ℕ} (hs : SlotOf s pre i n o)
    (hslot : ¬ isInternalNode ((s.node n).slots o)) :
    Has W s pre i a ↔ entryOf ((s.node n).slots o) (freeTag W (s.node n) o) = .item a := by
  have hcell : ((view W s pre).cell n).slot (i / 2 ^ ((view W s pre).cell n).shift % 2 ^ 6) =
      entryOf ((s.node n).slots o) (freeTag W (s.node n) o) := by
    rw [← slot_view hs.offset_lt, hs.offset]
    rfl
  cases he : entryOf ((s.node n).slots o) (freeTag W (s.node n) o) with
  | empty =>
    rw [he] at hcell
    simp [Has, h.wf.find_empty (by omega) hs.live hs.digits hcell a]
  | item c =>
    rw [he] at hcell
    have hhas := h.wf.find_item hs.live hs.digits hcell
    constructor
    · intro ha
      rw [h.wf.holds_unique (by omega) hhas ha]
    · intro hc
      cases hc
      exact hhas
  | node m => exact absurd (entryOf_eq_node.mp he).1 hslot

theorem Inv.taken_iff (h : Inv W Q s pre) {i n o : ℕ} (hs : SlotOf s pre i n o)
    (hslot : ¬ isInternalNode ((s.node n).slots o)) :
    Taken W s pre i ↔ freeTag W (s.node n) o = false := by
  refine ⟨fun ht => ?_, h.taken_of_clear hs⟩
  by_cases h0 : (s.node n).shift = 0
  · rw [h.taken_iff_closed hs.live, Summed.closed_iff h.wf (by omega) hs.live h0
      (hs.digits.trans (by rw [h0, zero_add]))] at ht
    have ho := hs.offset
    rw [h0, pow_zero, Nat.div_one] at ho
    rw [ho]
    exact ht
  · -- no leaf below an empty slot
    have hempty := h.empty_of_inner hs.live hs.offset_lt h0 hslot
    obtain ⟨m, hm, hms, hmp, -⟩ := (h.taken_iff_closed hs.live).mp ht
    obtain ⟨c, hc⟩ := h.wf.slot_below (by omega) hs.live hm
      (by rw [hms]; exact Nat.pos_of_ne_zero h0) hs.digits (by rw [hms, zero_add]; exact hmp)
    have hc' : ((view W s pre).cell n).slot o = .node c := by rw [hs.offset]; exact hc
    exact absurd ((slot_node hs.offset_lt).mp hc').1 hslot

/-- Without nodes, the word of the root is all there is. -/
theorem Shape.has_root (h : Shape W Q s pre) (hr : ¬ isInternalNode s.rnode) {i a : ℕ} :
    Has W s pre i a ↔ entryOf s.rnode (s.rootTagGet IDR_FREE) = .item a ∧ i = 0 := by
  have hlive : (view W s pre).live = ∅ := h.live_empty hr
  unfold Has Holds
  rw [hlive]
  simp [view]

theorem Shape.taken_root (h : Shape W Q s pre) (hr : ¬ isInternalNode s.rnode) {i : ℕ} :
    Taken W s pre i ↔ s.rootTagGet IDR_FREE = false ∧ i = 0 := by
  have hlive : (view W s pre).live = ∅ := h.live_empty hr
  unfold Taken Closed
  rw [hlive]
  simp [hr]

/-- Nothing lies beyond the largest index. -/
theorem Shape.beyond (h : Shape W Q s pre) {i : ℕ} (hi : i < 2 ^ W)
    (hgt : (radixTreeLoadRoot W s).1 < i) : (∀ a, ¬ Has W s pre i a) ∧ ¬ Taken W s pre i := by
  have hmax := Radix.Layout.lt_maxindex (s := s) hi
  by_cases hr : isInternalNode s.rnode
  · rw [if_pos hr] at hmax
    have hroot : (view W s pre).root = .node (entryToNode s.rnode) := entryOf_eq_node.mpr ⟨hr, rfl⟩
    have hl := (h.links.root hr).1
    refine ⟨fun a ha => ?_, fun ht => ?_⟩
    · exact absurd (hmax.mpr (h.wf.lt_of_holds (by omega) hroot ha)) (by omega)
    · obtain ⟨m, hm, hms, hmp, -⟩ := (h.taken_iff_closed hl).mp ht
      exact absurd (hmax.mpr (h.wf.lt_of_leaf (by omega) hroot hm hms hmp)) (by omega)
  · rw [if_neg hr] at hmax
    rw [h.taken_root hr]
    refine ⟨fun a ha => ?_, fun ht => ?_⟩
    · exact absurd (hmax.mpr ((h.has_root hr).mp ha).2) (by omega)
    · exact absurd (hmax.mpr ht.2) (by omega)

end HardStack.Ida.Layout
