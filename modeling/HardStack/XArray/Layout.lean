import HardStack.Lib.Trie
import HardStack.XArray.Model

/-! # The array as a trie

`view xa pre` reads the words of the memory as a trie with `2 ^ 6` slots a node. `Inv W xa pre`: the
trie has its shape, the nodes are aligned and above the small internal entries, no shift leaves the
word, and free entries are not tracked. Marks and the memory of other nodes play no part: a change of
them is an `Unmarked` step, which keeps the invariant and the content. -/

namespace HardStack.XArray.Layout

open HardStack.Lib.Trie HardStack.XArray.Model

variable {W : ℕ} {xa xa' : Xarray} {pre : ℕ → ℕ}

/-! ### Words -/

/-- What a word in a slot means. -/
def decode (w : ℕ) : Entry ℕ ℕ :=
  if w = 0 then .empty else if xaIsNode w then .node (xaToNode w) else .item w

@[simp] theorem decode_zero : decode 0 = .empty := rfl

theorem not_xaIsNode_zero : ¬ xaIsNode 0 := by decide

/-- An address for a node: aligned, and above the small internal entries. -/
def Addr (n : ℕ) : Prop := 4096 ≤ n ∧ 4 ∣ n

theorem Addr.ne_zero {n : ℕ} (h : Addr n) : n ≠ 0 := by
  have := h.1
  omega

theorem xaMkNode_eq {n : ℕ} (h : Addr n) : xaMkNode n = n + 2 := by
  obtain ⟨k, rfl⟩ := h.2
  have h1 := Nat.lor_bit false (2 * k) false 1
  have h2 := Nat.lor_bit false k true 0
  simp only [Nat.bit] at h1 h2
  unfold xaMkNode
  rw [show 4 * k = 2 * (2 * k) by ring]
  simp at h1 h2
  rw [h1, h2]
  ring

theorem xaIsNode_xaMkNode {n : ℕ} (h : Addr n) : xaIsNode (xaMkNode n) := by
  obtain ⟨h1, h2⟩ := h
  unfold xaIsNode xaIsInternal
  rw [xaMkNode_eq ⟨h1, h2⟩]
  omega

theorem xaToNode_xaMkNode {n : ℕ} (h : Addr n) : xaToNode (xaMkNode n) = n := by
  unfold xaToNode
  rw [xaMkNode_eq h]
  omega

theorem decode_eq_empty {w : ℕ} : decode w = .empty ↔ w = 0 := by
  unfold decode
  split_ifs with h0 h1 <;> simp [h0]

theorem decode_eq_node {w n : ℕ} : decode w = .node n ↔ xaIsNode w ∧ n = xaToNode w := by
  unfold decode
  split_ifs with h0 h1
  · simp [h0, not_xaIsNode_zero]
  · simp [h1, eq_comm]
  · simp [h1]

theorem decode_eq_item {w a : ℕ} : decode w = .item a ↔ w = a ∧ w ≠ 0 ∧ ¬ xaIsNode w := by
  unfold decode
  split_ifs with h0 h1
  · simp [h0]
  · simp [h1]
  · simp [h0, h1]

theorem decode_item {a : ℕ} (h0 : a ≠ 0) (h1 : ¬ xaIsNode a) : decode a = .item a :=
  decode_eq_item.mpr ⟨rfl, h0, h1⟩

theorem decode_xaMkNode {n : ℕ} (h : Addr n) : decode (xaMkNode n) = .node n :=
  decode_eq_node.mpr ⟨xaIsNode_xaMkNode h, (xaToNode_xaMkNode h).symm⟩

theorem decode_used {w : ℕ} : (decode w).used ↔ w ≠ 0 := by
  unfold decode
  split_ifs with h0 h1 <;> simp [h0]

theorem addChar_one {c : ℕ} (h : c < 255) : addChar c 1 = c + 1 := by unfold addChar; omega

theorem addChar_neg_one {c : ℕ} (h : 0 < c) (h' : c ≤ 255) : addChar c (-1) = c - 1 := by
  unfold addChar; omega

theorem addChar_zero {c : ℕ} (h : c ≤ 255) : addChar c 0 = c := by unfold addChar; omega

/-! ### The view -/

def viewCell (x : XaNode) (pre : ℕ) : Cell ℕ ℕ where
  shift := x.shift
  offset := x.offset
  count := x.count
  parent := if x.parent = 0 then none else some x.parent
  slot := fun o => decode (x.slots o)
  pre := pre

def view (xa : Xarray) (pre : ℕ → ℕ) : Store ℕ ℕ where
  root := decode xa.head
  live := xa.live
  cell := fun n => viewCell (xa.node n) (pre n)

/-- **The invariant** of an array that does not track free entries. -/
structure Inv (W : ℕ) (xa : Xarray) (pre : ℕ → ℕ) : Prop where
  wf : Wf 6 (view xa pre)
  addr : ∀ n ∈ xa.live, Addr n
  shift : ∀ n ∈ xa.live, (xa.node n).shift < W
  track : ¬ xa.trackFree

/-- The content of the array. -/
def Has (xa : Xarray) (pre : ℕ → ℕ) (i a : ℕ) : Prop := Holds 6 (view xa pre) i a

namespace Inv

variable {n o m : ℕ}

theorem count_eq (h : Inv W xa pre) (hn : n ∈ xa.live) :
    (xa.node n).count = (viewCell (xa.node n) (pre n)).size 6 := h.wf.count n hn

theorem count_le (h : Inv W xa pre) (hn : n ∈ xa.live) : (xa.node n).count ≤ 64 := by
  rw [h.count_eq hn]
  exact Cell.size_le 6 _

/-- The child that a slot points to. -/
theorem child (h : Inv W xa pre) (hn : n ∈ xa.live) (ho : o < 64)
    (hc : xaIsNode ((xa.node n).slots o)) :
    xaToNode ((xa.node n).slots o) ∈ xa.live ∧
      (xa.node n).shift = (xa.node (xaToNode ((xa.node n).slots o))).shift + 6 := by
  have hslot : ((view xa pre).cell n).slot o = .node (xaToNode ((xa.node n).slots o)) :=
    decode_eq_node.mpr ⟨hc, rfl⟩
  obtain ⟨hl, hs, -⟩ := h.wf.child hn ho hslot
  exact ⟨hl, hs⟩

/-- A leaf's slot holds no node. -/
theorem leaf_slot (h : Inv W xa pre) (hn : n ∈ xa.live) (ho : o < 64) (hs : (xa.node n).shift = 0) :
    ¬ xaIsNode ((xa.node n).slots o) := by
  intro hc
  have := (h.child hn ho hc).2
  omega

theorem head (h : Inv W xa pre) (hr : xaIsNode xa.head) : xaToNode xa.head ∈ xa.live ∧
    (xa.node (xaToNode xa.head)).parent = 0 ∧ pre (xaToNode xa.head) = 0 ∧
    (xa.node (xaToNode xa.head)).offset = 0 := by
  have hroot : (view xa pre).root = .node (xaToNode xa.head) := decode_eq_node.mpr ⟨hr, rfl⟩
  obtain ⟨hl, hp⟩ := h.wf.root_node _ hroot
  obtain ⟨-, h1, h2⟩ := h.wf.top _ hl hp
  refine ⟨hl, ?_, h1, h2⟩
  by_contra h0
  simp [view, viewCell, h0] at hp

/-- The parent of a node that has one. -/
theorem parent (h : Inv W xa pre) (hn : n ∈ xa.live) (h0 : (xa.node n).parent ≠ 0) :
    (xa.node n).parent ∈ xa.live ∧ (xa.node n).offset < 64 ∧
      (xa.node (xa.node n).parent).shift = (xa.node n).shift + 6 := by
  have hp : ((view xa pre).cell n).parent = some (xa.node n).parent := if_neg h0
  obtain ⟨hl, ho, -, hs, -⟩ := h.wf.up n hn _ hp
  exact ⟨hl, ho, hs⟩

theorem not_mem_zero (h : Inv W xa pre) : 0 ∉ xa.live := fun h0 => (h.addr 0 h0).ne_zero rfl

end Inv

/-- A change of marks and of memory outside of the tree. -/
structure Unmarked (xa xa' : Xarray) : Prop where
  head : xa'.head = xa.head
  live : xa'.live = xa.live
  node : ∀ n ∈ xa.live, xa'.node n = { xa.node n with marks := (xa'.node n).marks }
  track : ¬ xa.trackFree → ¬ xa'.trackFree

namespace Unmarked

theorem refl : Unmarked xa xa := ⟨rfl, rfl, fun _ _ => rfl, id⟩

theorem trans {xa'' : Xarray} (h : Unmarked xa xa') (h' : Unmarked xa' xa'') : Unmarked xa xa'' := by
  refine ⟨h'.head.trans h.head, h'.live.trans h.live, fun n hn => ?_, fun ht => h'.track (h.track ht)⟩
  rw [h'.node n (h.live ▸ hn), h.node n hn]

theorem agree (h : Unmarked xa xa') : Agree (view xa pre) (view xa' pre) := by
  refine ⟨?_, h.live, fun n hn => ?_⟩
  · show decode xa'.head = decode xa.head
    rw [h.head]
  · show viewCell (xa'.node n) (pre n) = viewCell (xa.node n) (pre n)
    rw [h.node n hn]
    rfl

theorem shift (h : Unmarked xa xa') {n : ℕ} (hn : n ∈ xa.live) :
    (xa'.node n).shift = (xa.node n).shift := by rw [h.node n hn]

theorem slots (h : Unmarked xa xa') {n : ℕ} (hn : n ∈ xa.live) :
    (xa'.node n).slots = (xa.node n).slots := by rw [h.node n hn]

theorem inv (h : Unmarked xa xa') (hinv : Inv W xa pre) : Inv W xa' pre := by
  refine ⟨h.agree.wf hinv.wf, fun n hn => hinv.addr n (h.live ▸ hn), fun n hn => ?_,
    h.track hinv.track⟩
  rw [h.shift (h.live ▸ hn)]
  exact hinv.shift n (h.live ▸ hn)

theorem has (h : Unmarked xa xa') {i a : ℕ} : Has xa' pre i a ↔ Has xa pre i a := h.agree.holds

end Unmarked

/-! ### The largest index -/

/-- The comparison with the largest index; the shift to the left wraps around at the top. -/
theorem maxIndex_lt (xa : Xarray) {i : ℕ} (hi : i < 2 ^ W) (entry : ℕ) : i > maxIndex W xa entry ↔
    if xaIsNode entry then 2 ^ ((xa.node (xaToNode entry)).shift + 6) ≤ i else i ≠ 0 := by
  unfold maxIndex
  by_cases hn : xaIsNode entry
  · rw [if_neg (not_not.mpr hn), if_pos hn]
    generalize (xa.node (xaToNode entry)).shift = s
    have hsize : XA_CHUNK_SIZE * 2 ^ s = 2 ^ (s + 6) := by
      rw [XA_CHUNK_SIZE, pow_add]; ring
    have hW : 0 < 2 ^ W := by positivity
    have hpos : 0 < 2 ^ (s + 6) := by positivity
    rw [hsize]
    by_cases h : s + 6 < W
    · have hlt : 2 ^ (s + 6) < 2 ^ W := Nat.pow_lt_pow_right (by omega) h
      have heq : 2 ^ (s + 6) + 2 ^ W - 1 = (2 ^ (s + 6) - 1) + 2 ^ W := by omega
      rw [Nat.mod_eq_of_lt hlt, heq, Nat.add_mod_right, Nat.mod_eq_of_lt (by omega)]
      omega
    · have hdvd : 2 ^ W ∣ 2 ^ (s + 6) := Nat.pow_dvd_pow 2 (by omega)
      have hle : 2 ^ W ≤ 2 ^ (s + 6) := Nat.le_of_dvd hpos hdvd
      rw [Nat.mod_eq_zero_of_dvd hdvd, zero_add, Nat.mod_eq_of_lt (by omega)]
      omega
  · rw [if_pos hn, if_neg hn]
    omega

/-! ### The slot of an index -/

/-- The slot of an index in a node that has its leading digits. -/
structure SlotOf (xa : Xarray) (pre : ℕ → ℕ) (i n o : ℕ) : Prop where
  live : n ∈ xa.live
  digits : pre n = i / 2 ^ ((xa.node n).shift + 6)
  offset : o = i / 2 ^ (xa.node n).shift % 64

namespace SlotOf

variable {i n o a : ℕ}

theorem offset_lt (h : SlotOf xa pre i n o) : o < 64 := by
  rw [h.offset]
  exact Nat.mod_lt _ (by omega)

theorem getOffset_eq (h : SlotOf xa pre i n o) : getOffset xa i n = o := h.offset.symm

theorem unmarked (h : SlotOf xa pre i n o) (hu : Unmarked xa xa') : SlotOf xa' pre i n o := by
  refine ⟨hu.live ▸ h.live, ?_, ?_⟩
  · rw [hu.shift h.live]; exact h.digits
  · rw [hu.shift h.live]; exact h.offset

/-- What the slot of an index holds, if not a node, is the content. -/
theorem has_iff (hinv : Inv W xa pre) (h : SlotOf xa pre i n o)
    (hslot : ¬ xaIsNode ((xa.node n).slots o)) : Has xa pre i a ↔ (xa.node n).slots o = a ∧ a ≠ 0 := by
  have hcell : ((view xa pre).cell n).slot (i / 2 ^ ((view xa pre).cell n).shift % 2 ^ 6) =
      decode ((xa.node n).slots o) := by rw [h.offset]; rfl
  by_cases h0 : (xa.node n).slots o = 0
  · rw [h0, decode_zero] at hcell
    have hno := hinv.wf.find_empty (by omega) h.live h.digits hcell a
    constructor
    · exact fun ha => absurd ha hno
    · rintro ⟨rfl, hne⟩
      exact absurd h0 hne
  · rw [decode_item h0 hslot] at hcell
    have hhas : Has xa pre i ((xa.node n).slots o) := hinv.wf.find_item h.live h.digits hcell
    constructor
    · intro ha
      have heq := hinv.wf.holds_unique (by omega) hhas ha
      exact ⟨heq, heq ▸ h0⟩
    · rintro ⟨rfl, -⟩
      exact hhas

/-- The slot of the index one level down. -/
theorem down (hinv : Inv W xa pre) (h : SlotOf xa pre i n o) (hslot : xaIsNode ((xa.node n).slots o)) :
    let m := xaToNode ((xa.node n).slots o)
    SlotOf xa pre i m (getOffset xa i m) ∧ (xa.node n).shift = (xa.node m).shift + 6 := by
  have hcell : ((view xa pre).cell n).slot (i / 2 ^ ((view xa pre).cell n).shift % 2 ^ 6) =
      .node (xaToNode ((xa.node n).slots o)) := by
    rw [← decode_eq_node.mpr ⟨hslot, rfl⟩, h.offset]; rfl
  obtain ⟨hl, hs, hp⟩ := hinv.wf.find_child h.live h.digits hcell
  exact ⟨⟨hl, hp, rfl⟩, hs⟩

end SlotOf

/-- The slot of an index at the head's node. -/
theorem slotOf_head (hinv : Inv W xa pre) (hr : xaIsNode xa.head) {i : ℕ}
    (hi : i < 2 ^ ((xa.node (xaToNode xa.head)).shift + 6)) :
    SlotOf xa pre i (xaToNode xa.head) (getOffset xa i (xaToNode xa.head)) := by
  obtain ⟨hl, -, hp, -⟩ := hinv.head hr
  exact ⟨hl, by rw [hp, Nat.div_eq_of_lt hi], rfl⟩

/-- The content of an array without nodes. -/
theorem has_head (hr : ¬ xaIsNode xa.head) (hinv : Inv W xa pre) {i a : ℕ} :
    Has xa pre i a ↔ (xa.head = a ∧ a ≠ 0) ∧ i = 0 := by
  have hroot : ∀ r, (view xa pre).root ≠ .node r := fun r h => hr (decode_eq_node.mp h).1
  have hlive := hinv.wf.live_empty (by omega) hroot
  unfold Has Holds
  rw [hlive]
  simp only [Finset.notMem_empty, false_and, exists_false, false_or]
  refine and_congr_left fun _ => ?_
  show decode xa.head = .item a ↔ _
  rw [decode_eq_item]
  constructor
  · rintro ⟨rfl, h0, -⟩; exact ⟨rfl, h0⟩
  · rintro ⟨rfl, h0⟩; exact ⟨rfl, h0, hr⟩

/-! ### `xas_load` -/

/-- Where a walk can end, and the entry there. -/
inductive Found (xa : Xarray) (pre : ℕ → ℕ) (i : ℕ) : (node offset entry : ℕ) → Prop
  | beyond {o : ℕ} (hno : ∀ a, ¬ Has xa pre i a) : Found xa pre i XAS_BOUNDS o 0
  | head {o : ℕ} (hr : ¬ xaIsNode xa.head) (hi : i = 0) : Found xa pre i 0 o xa.head
  | node {n o : ℕ} (h : SlotOf xa pre i n o) (hslot : ¬ xaIsNode ((xa.node n).slots o)) :
      Found xa pre i n o ((xa.node n).slots o)

/-- **What a walk finds is the content.** -/
theorem Found.has_iff (hinv : Inv W xa pre) {i a n o e : ℕ} (h : Found xa pre i n o e) :
    Has xa pre i a ↔ e = a ∧ a ≠ 0 := by
  cases h with
  | beyond hno =>
    constructor
    · exact fun ha => absurd ha (hno a)
    · rintro ⟨rfl, h0⟩
      exact absurd rfl h0
  | head hr hi => rw [has_head hr hinv]; simp [hi]
  | node h hslot => exact h.has_iff hinv hslot

/-- The walk from a node down. -/
theorem loadLoop_spec (hinv : Inv W xa pre) {i : ℕ} (alloc : ℕ) : ∀ {k n m p : ℕ} {entry : ℕ},
    xaIsNode entry → xaToNode entry = n → SlotOf xa pre i n (getOffset xa i n) →
    (xa.node n).shift < k → ∃ n' o',
      loadLoop k ⟨xa, i, m, p, alloc⟩ entry = some (⟨xa, i, o', n', alloc⟩, (xa.node n').slots o') ∧
      SlotOf xa pre i n' o' ∧ ¬ xaIsNode ((xa.node n').slots o')
  | 0, _, _, _, _, _, _, _, hk => absurd hk (by omega)
  | k + 1, n, m, p, entry, hent, hn, h, hk => by
    subst hn
    rw [loadLoop, if_pos hent]
    dsimp only [xasDescend]
    by_cases hs : (xa.node (xaToNode entry)).shift = 0
    · rw [if_pos hs]
      exact ⟨_, _, rfl, h, hinv.leaf_slot h.live h.offset_lt hs⟩
    · rw [if_neg hs]
      by_cases hslot : xaIsNode ((xa.node (xaToNode entry)).slots (getOffset xa i (xaToNode entry)))
      · obtain ⟨hdown, hsh⟩ := h.down hinv hslot
        exact loadLoop_spec hinv alloc hslot rfl hdown (by omega)
      · obtain ⟨j, rfl⟩ : ∃ j, k = j + 1 := ⟨k - 1, by omega⟩
        rw [loadLoop, if_neg hslot]
        exact ⟨_, _, rfl, h, hslot⟩

/-- **`xas_load`** on a new state walks to the slot of the index. -/
theorem xasLoad_spec (hinv : Inv W xa pre) {i fuel : ℕ} (hf : W < fuel) :
    ∃ n o e, xasLoad W fuel (xaState xa i) = some (⟨xa, i, o, n, 0⟩, e) ∧ Found xa pre i n o e := by
  have hstart : xasInvalid (xaState xa i) := by
    show 3 % 4 ≠ 0
    decide
  have herr : ¬ xasError W (xaState xa i) := by
    unfold xasError xaIsErr xaIsInternal xaState XAS_RESTART
    simp
  obtain ⟨k, rfl⟩ : ∃ k, fuel = k + 1 := ⟨fuel - 1, by omega⟩
  unfold xasLoad xasStart
  rw [if_neg (not_not.mpr hstart), if_neg herr]
  dsimp only [xaState]
  by_cases hr : xaIsNode xa.head
  · simp only [if_pos hr]
    have hdiv : i / 2 ^ (xa.node (xaToNode xa.head)).shift ≥ XA_CHUNK_SIZE ↔
        2 ^ ((xa.node (xaToNode xa.head)).shift + 6) ≤ i := by
      rw [ge_iff_le, Nat.le_div_iff_mul_le (by positivity), XA_CHUNK_SIZE, pow_add, mul_comm]
      rfl
    by_cases hge : i / 2 ^ (xa.node (xaToNode xa.head)).shift ≥ XA_CHUNK_SIZE
    · rw [if_pos hge]
      dsimp only
      rw [loadLoop, if_neg not_xaIsNode_zero]
      refine ⟨_, _, _, rfl, .beyond fun a ha => ?_⟩
      have hroot : (view xa pre).root = .node (xaToNode xa.head) := decode_eq_node.mpr ⟨hr, rfl⟩
      have hlt := hinv.wf.lt_of_holds (by omega) hroot ha
      exact absurd (hdiv.mp hge) (not_le.mpr hlt)
    · rw [if_neg hge]
      have hslot := slotOf_head hinv hr (i := i) (by rw [hdiv] at hge; omega)
      obtain ⟨n', o', heq, h1, h2⟩ := loadLoop_spec hinv 0 (k := k + 1) (m := 0) (p := 0)
        hr rfl hslot (by have := hinv.shift _ hslot.live; omega)
      exact ⟨n', o', _, heq, .node h1 h2⟩
  · simp only [if_neg hr]
    by_cases hi : i = 0
    · rw [if_neg (not_not.mpr hi)]
      dsimp only
      rw [loadLoop, if_neg hr]
      exact ⟨_, _, _, rfl, .head hr hi⟩
    · rw [if_pos hi]
      dsimp only
      rw [loadLoop, if_neg not_xaIsNode_zero]
      exact ⟨_, _, _, rfl, .beyond fun a ha => hi ((has_head hr hinv).mp ha).2⟩

end HardStack.XArray.Layout
