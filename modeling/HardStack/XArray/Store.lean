import HardStack.XArray.Create

/-! # Storing

`xas_store` writes the slot it was walked to. Where it clears an entry, `xas_delete_node` takes out
the nodes that became empty, from the leaf up, and `xas_shrink` takes off the top while the tree fits
into its first slot. The loop of `__xa_store` tries again as long as it gets the node it lacked. -/

namespace HardStack.XArray.Store

open HardStack.Lib.Trie HardStack.XArray.Model HardStack.XArray.Layout HardStack.XArray.Create

variable {W : ℕ} {xa xa' : Xarray} {xas xas' : XaState} {pre pre' : ℕ → ℕ}
  {malloc : ℕ → Finset ℕ → ℕ}

/-- Reading the content after an entry is put at an index. -/
def Put (xa : Xarray) (pre : ℕ → ℕ) (index entry : ℕ) (xa' : Xarray) (pre' : ℕ → ℕ) : Prop :=
  ∀ i a, Has xa' pre' i a ↔ if i = index then entry = a ∧ a ≠ 0 else Has xa pre i a

/-- Writing an entry, or `NULL`, as the head of an array without nodes. -/
theorem setHead_inv (hinv : Inv W xa pre) (hr : ¬ xaIsNode xa.head) {index entry : ℕ}
    (hi : index = 0) (hentry : ¬ xaIsNode entry) : Inv W { xa with head := entry } pre ∧
      Put xa pre index entry { xa with head := entry } pre := by
  subst hi
  have hview : view { xa with head := entry } pre = (view xa pre).setRoot (decode entry) := rfl
  have hold : ∀ m, (view xa pre).root ≠ .node m := fun m h => hr (decode_eq_node.mp h).1
  have hnew : ∀ m, decode entry ≠ .node m := fun m h => hentry (decode_eq_node.mp h).1
  obtain ⟨hwf, hhas⟩ := hinv.wf.setRoot (by omega) hold hnew
  refine ⟨⟨hview ▸ hwf, hinv.addr, hinv.shift, hinv.track⟩, fun i a => ?_⟩
  unfold Has
  rw [hview, hhas, decode_eq_item]
  by_cases hi : i = 0
  · rw [if_pos hi]
    constructor
    · rintro ⟨⟨rfl, h0, -⟩, -⟩; exact ⟨rfl, h0⟩
    · rintro ⟨rfl, h0⟩; exact ⟨⟨rfl, h0, hentry⟩, hi⟩
  · rw [if_neg hi]
    constructor
    · rintro ⟨-, h0⟩; exact absurd h0 hi
    · exact fun ha => absurd ((has_head hr hinv).mp ha).2 hi

/-- The array with an entry in a slot of a leaf, and the counts of the leaf. -/
def putLeaf (xa : Xarray) (n o entry : ℕ) (count : ℤ) (values : ℕ) : Xarray :=
  (xa.setSlot (some (n, o)) entry).setNode n fun x => { x with
    count := addChar x.count count, nrValues := values }

theorem putLeaf_node (n o entry x : ℕ) (count : ℤ) (values : ℕ) :
    (putLeaf xa n o entry count values).node x = if x = n then { xa.node n with
      slots := Function.update (xa.node n).slots o entry
      count := addChar (xa.node n).count count
      nrValues := values } else xa.node x := by
  unfold putLeaf Xarray.setSlot Xarray.setNode
  by_cases hx : x = n
  · subst hx; simp
  · simp [hx]

/-- **Writing an entry**, or `NULL`, into a slot of a leaf. -/
theorem putLeaf_inv (hinv : Inv W xa pre) {index n o entry : ℕ} {count : ℤ} (values : ℕ)
    (h : SlotOf xa pre index n o) (hleaf : (xa.node n).shift = 0) (hentry : ¬ xaIsNode entry)
    (hcount : count = (if (xa.node n).slots o = 0 then 1 else 0) - (if entry = 0 then 1 else 0)) :
    Inv W (putLeaf xa n o entry count values) pre ∧
      Put xa pre index entry (putLeaf xa n o entry count values) pre := by
  have hold' := hinv.leaf_slot h.live h.offset_lt hleaf
  have hle := hinv.count_le h.live
  have hsize : (xa.node n).count = ((view xa pre).cell n).size 6 := hinv.wf.count n h.live
  have hslot : ((view xa pre).cell n).slot o = decode ((xa.node n).slots o) := rfl
  have hview : view (putLeaf xa n o entry count values) pre =
      (view xa pre).setSlot n o (decode entry) (addChar (xa.node n).count count) := by
    ext x : 2
    · rfl
    · rfl
    · rw [Store.cell_setSlot]
      show viewCell ((putLeaf xa n o entry count values).node x) (pre x) = _
      rw [putLeaf_node]
      by_cases hx : x = n
      · subst hx
        rw [if_pos rfl, if_pos rfl]
        ext y
        all_goals try rfl
        simp only [viewCell, Cell.put, view, Function.update_apply]
        split_ifs <;> rfl
      · rw [if_neg hx, if_neg hx]
        rfl
  have hold : ∀ m, ((view xa pre).cell n).slot o ≠ .node m := fun m hm =>
    hold' (decode_eq_node.mp hm).1
  have hnew : ∀ m, decode entry ≠ .node m := fun m hm => hentry (decode_eq_node.mp hm).1
  -- the count follows the slot: taken, cleared, or used before and after
  have hk : ∀ k, addChar (xa.node n).count count =
      (((view xa pre).cell n).put o (decode entry) k).size 6 := by
    intro k
    by_cases h0 : (xa.node n).slots o = 0 <;> by_cases he : entry = 0
    · have := Cell.size_replace (b := 6) (e := decode entry) k (by rw [hslot, h0, he])
      rw [hcount, if_pos h0, if_pos he, this, ← hsize]
      exact addChar_zero (by omega)
    · have := Cell.size_put (b := 6) (e := decode entry) k h.offset_lt
        (by rw [hslot, h0]; rfl) (decode_used.mpr he)
      rw [hcount, if_pos h0, if_neg he, this, ← hsize]
      exact addChar_one (by omega)
    · have := Cell.size_clear (b := 6) k h.offset_lt (by rw [hslot]; exact decode_used.mpr h0)
      rw [hcount, if_neg h0, if_pos he, he, decode_zero]
      have := addChar_neg_one (c := (xa.node n).count) (by omega) (by omega)
      show addChar (xa.node n).count (-1) = _
      omega
    · have := Cell.size_replace (b := 6) (e := decode entry) k
        (by rw [hslot, decode_used.mpr h0, decode_used.mpr he])
      rw [hcount, if_neg h0, if_neg he, this, ← hsize]
      exact addChar_zero (by omega)
  refine ⟨⟨?_, hinv.addr, ?_, hinv.track⟩, fun i a => ?_⟩
  · rw [hview]
    exact hinv.wf.setSlot hold hnew (fun _ _ => hleaf) (hk _)
  · intro x hx
    rw [putLeaf_node]
    split_ifs with hxn
    · rw [← hxn]; exact hinv.shift x hx
    · exact hinv.shift x hx
  · have hidx : ((view xa pre).cell n).pre * 2 ^ 6 + o = index := by
      have hd := h.digits
      have ho := h.offset
      rw [hleaf] at hd ho
      show pre n * 64 + o = index
      rw [hd, ho]
      simp only [zero_add, pow_zero, Nat.div_one]
      omega
    unfold Has
    rw [hview, hinv.wf.holds_setSlot (by omega) h.live h.offset_lt hleaf, hidx]
    split_ifs with hi
    · rw [decode_eq_item]
      constructor
      · rintro ⟨rfl, h0, -⟩; exact ⟨rfl, h0⟩
      · rintro ⟨rfl, h0⟩; exact ⟨rfl, h0, hentry⟩
    · exact Iff.rfl

/-! ### Marks -/

theorem Unmarked.nodeMark (xa : Xarray) (n mark offset : ℕ) (v : Bool) :
    Unmarked xa (xa.nodeMark n mark offset v) := by
  refine ⟨rfl, rfl, fun x _ => ?_, id⟩
  unfold Xarray.nodeMark Xarray.setNode
  by_cases hx : x = n
  · subst hx; simp
  · simp [hx]

theorem Unmarked.markClear (mark : ℕ) : Unmarked xa (xa.markClear mark) := by
  refine ⟨rfl, rfl, fun _ _ => rfl, fun ht h => ht fun h0 => h ?_⟩
  show xa.flags &&& Lib.Word.notW 32 (2 ^ (23 + mark)) &&& 4 = 0
  rw [Nat.and_assoc, Nat.and_comm _ 4, ← Nat.and_assoc, h0, Nat.zero_and]

/-- Clearing a mark climbs to the head at most. -/
theorem clearMarkLoop_spec (mark : ℕ) : ∀ {k node : ℕ} (offset : ℕ) {xa : Xarray}, Inv W xa pre →
    (node = 0 ∨ node ∈ xa.live) → (node ∈ xa.live → W < (xa.node node).shift + k) → 0 < k →
    ∃ xa', clearMarkLoop mark k xa node offset = some xa' ∧ Unmarked xa xa'
  | 0, _, _, _, _, _, _, hk => absurd hk (by omega)
  | k + 1, node, offset, xa, hinv, hn, hk, _ => by
    rw [clearMarkLoop]
    by_cases h0 : node = 0
    · rw [if_neg (not_not.mpr h0)]
      refine ⟨_, rfl, ?_⟩
      split_ifs
      · exact Unmarked.markClear mark
      · exact Unmarked.refl
    · rw [if_pos h0]
      have hl := hn.resolve_left h0
      dsimp only
      split_ifs with hany hmark
      · exact ⟨_, rfl, Unmarked.nodeMark _ _ _ _ _⟩
      · have hu := Unmarked.nodeMark xa node mark offset false
        have hinv' := hu.inv hinv
        have hl' : node ∈ (xa.nodeMark node mark offset false).live := hu.live ▸ hl
        have hshift := hu.shift hl
        have hkl := hk hl
        have hlt := hinv.shift node hl
        generalize xa.nodeMark node mark offset false = xa₁ at *
        obtain ⟨xa', heq, hu'⟩ := clearMarkLoop_spec mark (k := k) (xa₁.node node).offset hinv'
          (by
            show (xa₁.node node).parent = 0 ∨ (xa₁.node node).parent ∈ xa₁.live
            by_cases hp : (xa₁.node node).parent = 0
            · exact Or.inl hp
            · exact Or.inr (hinv'.parent hl' hp).1)
          (fun hpl => by
            have hp := hinv'.parent hl' fun h => hinv'.not_mem_zero (h ▸ hpl)
            omega) (by omega)
        exact ⟨xa', heq, hu.trans hu'⟩
      · exact ⟨_, rfl, Unmarked.refl⟩

theorem xasInitMarks_spec (xas : XaState) (hinv : Inv W xas.xa pre)
    (hn : xas.node = 0 ∨ xas.node ∈ xas.xa.live) {fuel : ℕ} (hf : W < fuel) :
    ∃ xa', xasInitMarks fuel xas = some { xas with xa := xa' } ∧ Unmarked xas.xa xa' := by
  unfold xasInitMarks
  generalize List.range (XA_MARK_MAX + 1) = l
  induction l generalizing xas with
  | nil => exact ⟨xas.xa, rfl, Unmarked.refl⟩
  | cons mark l ih =>
    have hvalid : ¬ xasInvalid xas := by
      unfold xasInvalid
      rcases hn with h0 | hl
      · omega
      · have := (hinv.addr _ hl).2
        omega
    obtain ⟨xa₁, heq, hu⟩ := clearMarkLoop_spec mark (k := fuel) xas.offset hinv hn
      (fun _ => by omega) (by omega)
    obtain ⟨xa₂, heq', hu'⟩ := ih { xas with xa := xa₁ } (hu.inv hinv)
      (hn.imp_right fun h => hu.live ▸ h)
    refine ⟨xa₂, ?_, hu.trans hu'⟩
    rw [List.foldlM_cons, if_neg fun h => hinv.track h.1]
    unfold xasClearMark
    rw [if_neg hvalid, heq]
    exact heq'

/-! ### `xas_shrink` -/

/-- The array without its top node `n`. -/
def popTop (xa : Xarray) (n : ℕ) : Xarray :=
  let entry := (xa.node n).slots 0
  let xa : Xarray := { xa with head := entry }
  let xa := xa.setNode n fun x => { x with count := 0, nrValues := 0 }
  let xa := if ¬ xaIsNode entry then xa.setSlot (some (n, 0)) XA_RETRY_ENTRY else xa
  let xa := xa.free n
  if ¬ xaIsNode entry then xa
  else xa.setNode (xaToNode entry) fun x => { x with parent := 0 }

section

variable {n : ℕ}

theorem popTop_live : (popTop xa n).live = xa.live.erase n := by
  unfold popTop
  dsimp only
  split_ifs <;> rfl

theorem popTop_flags : (popTop xa n).flags = xa.flags := by
  unfold popTop
  dsimp only
  split_ifs <;> rfl

theorem popTop_head : (popTop xa n).head = (xa.node n).slots 0 := by
  unfold popTop
  dsimp only
  split_ifs <;> rfl

theorem popTop_node {x : ℕ} (hx : x ≠ n) : (popTop xa n).node x =
    { xa.node x with
      parent := if xaIsNode ((xa.node n).slots 0) ∧ x = xaToNode ((xa.node n).slots 0) then 0
        else (xa.node x).parent } := by
  unfold popTop
  dsimp only
  by_cases hc : xaIsNode ((xa.node n).slots 0)
  · simp only [hc, not_true_eq_false, if_false, true_and, Xarray.setNode, Xarray.free]
    by_cases hxc : x = xaToNode ((xa.node n).slots 0)
    · subst hxc
      simp [hx]
    · simp [hx, hxc]
  · simp [hc, Xarray.setNode, Xarray.free, Xarray.setSlot, hx]

/-- **Taking off the top node** keeps the invariant and the content. -/
theorem popTop_inv (hinv : Inv W xa pre) (hr : xaIsNode xa.head) (hn : n = xaToNode xa.head)
    (h1 : (xa.node n).count = 1) (hc : (xa.node n).slots 0 ≠ 0) :
    Inv W (popTop xa n) pre ∧ ∀ i a, Has (popTop xa n) pre i a ↔ Has xa pre i a := by
  have hnl : n ∈ xa.live := hn ▸ (hinv.head hr).1
  have hroot : (view xa pre).root = .node n := decode_eq_node.mpr ⟨hr, hn⟩
  have hsize : ((view xa pre).cell n).size 6 = 1 := by rw [← hinv.wf.count n hnl]; exact h1
  have hused : (((view xa pre).cell n).slot 0).used := decode_used.mpr hc
  have hslot : ∀ x, ((view xa pre).cell n).slot 0 = .node x ↔
      xaIsNode ((xa.node n).slots 0) ∧ x = xaToNode ((xa.node n).slots 0) :=
    fun x => decode_eq_node
  have hcell : ∀ x, x ≠ n → (view (popTop xa n) pre).cell x = viewCell { xa.node x with
      parent := if xaIsNode ((xa.node n).slots 0) ∧ x = xaToNode ((xa.node n).slots 0)
        then 0 else (xa.node x).parent } (pre x) := by
    intro x hx
    show viewCell _ _ = _
    rw [popTop_node hx]
  have hoff : OffTop (view xa pre) (view (popTop xa n) pre) n := by
    refine ⟨?_, popTop_live, fun x hx hxn => ?_, fun x hx hxn h0 => ?_, fun x hx hxn h0 => ?_⟩
    · show decode (popTop xa n).head = _
      rw [popTop_head]
      rfl
    · rw [hcell x hxn]
      rfl
    · rw [hcell x hxn, if_pos ((hslot x).mp h0)]
      rfl
    · rw [hcell x hxn, if_neg fun h => h0 ((hslot x).mpr h)]
      rfl
  refine ⟨⟨hoff.wf hinv.wf hroot hsize hused, fun x hx => ?_, fun x hx => ?_, ?_⟩,
    fun i a => hoff.holds hinv.wf hroot hsize hused⟩
  · rw [popTop_live] at hx
    exact hinv.addr x (Finset.mem_of_mem_erase hx)
  · rw [popTop_live, Finset.mem_erase] at hx
    rw [popTop_node hx.1]
    exact hinv.shift x hx.2
  · unfold Xarray.trackFree
    rw [popTop_flags]
    exact hinv.track

end

/-- What deleting nodes leaves: the content as before, and no error in the state. -/
structure Trims (W : ℕ) (pre : ℕ → ℕ) (xa : Xarray) (r : Option XaState) (xas' : XaState) : Prop where
  eq : r = some xas'
  inv : Inv W xas'.xa pre
  has : ∀ i a, Has xas'.xa pre i a ↔ Has xa pre i a
  noError : ¬ xaIsInternal xas'.node

theorem Trims.of_has {r : Option XaState} (hhas : ∀ i a, Has xa' pre i a ↔ Has xa pre i a)
    (h : Trims W pre xa' r xas') : Trims W pre xa r xas' :=
  ⟨h.eq, h.inv, fun i a => (h.has i a).trans (hhas i a), h.noError⟩

theorem not_xaIsInternal_bounds : ¬ xaIsInternal XAS_BOUNDS := by decide

theorem not_xaIsInternal_of_live (hinv : Inv W xa pre) {n : ℕ} (hn : n ∈ xa.live) :
    ¬ xaIsInternal n := by
  have := (hinv.addr n hn).2
  unfold xaIsInternal
  omega

/-- One round of the loop. -/
theorem shrinkLoop_succ (ht : ¬ xas.xa.trackFree) {k node : ℕ}
    (h1 : (xas.xa.node node).count = 1) (hc : (xas.xa.node node).slots 0 ≠ 0)
    (hs : xaIsNode ((xas.xa.node node).slots 0) ∨ (xas.xa.node node).shift = 0) :
    shrinkLoop (k + 1) xas node =
      if xaIsNode ((xas.xa.node node).slots 0) then
        shrinkLoop k { xas with xa := popTop xas.xa node, node := XAS_BOUNDS }
          (xaToNode ((xas.xa.node node).slots 0))
      else some { xas with xa := popTop xas.xa node, node := XAS_BOUNDS } := by
  rw [shrinkLoop]
  dsimp only
  rw [if_neg (not_not.mpr h1), if_neg hc, if_neg (by tauto)]
  have htr : ¬ (({ xas.xa with head := (xas.xa.node node).slots 0 } : Xarray).trackFree ∧
      (xas.xa.node node).marks XA_FREE_MARK 0 = false) := fun h => ht h.1
  dsimp only at htr
  unfold popTop
  dsimp only
  rw [if_neg htr]
  by_cases hn : xaIsNode ((xas.xa.node node).slots 0)
  · rw [if_neg (not_not.mpr hn), if_neg (not_not.mpr hn), if_pos hn, if_neg (not_not.mpr hn)]
  · rw [if_pos hn, if_pos hn, if_neg hn, if_pos hn]

theorem shrinkLoop_spec : ∀ {k node : ℕ} (xas : XaState), Inv W xas.xa pre →
    xaIsNode xas.xa.head → node = xaToNode xas.xa.head → (xas.xa.node node).shift < k →
    ¬ xaIsInternal xas.node → ∃ xas', Trims W pre xas.xa (shrinkLoop k xas node) xas'
  | 0, _, _, _, _, _, hk, _ => absurd hk (by omega)
  | k + 1, node, xas, hinv, hr, hn, hk, hint => by
    by_cases hgo : (xas.xa.node node).count = 1 ∧ (xas.xa.node node).slots 0 ≠ 0 ∧
        (xaIsNode ((xas.xa.node node).slots 0) ∨ (xas.xa.node node).shift = 0)
    · obtain ⟨h1, hc, hs⟩ := hgo
      rw [shrinkLoop_succ hinv.track h1 hc hs]
      obtain ⟨hinv', hhas⟩ := popTop_inv hinv hr hn h1 hc
      by_cases hcn : xaIsNode ((xas.xa.node node).slots 0)
      · rw [if_pos hcn]
        obtain ⟨-, hsh⟩ := hinv.child (hn ▸ (hinv.head hr).1) (by omega) hcn
        have hne : xaToNode ((xas.xa.node node).slots 0) ≠ node := by
          intro he
          rw [he] at hsh
          omega
        obtain ⟨xas', h⟩ := shrinkLoop_spec (k := k)
          { xas with xa := popTop xas.xa node, node := XAS_BOUNDS } hinv'
          (by rw [popTop_head]; exact hcn) (by rw [popTop_head])
          (by rw [popTop_node hne]
              show (xas.xa.node (xaToNode ((xas.xa.node node).slots 0))).shift < k
              omega) not_xaIsInternal_bounds
        exact ⟨xas', h.of_has hhas⟩
      · rw [if_neg hcn]
        exact ⟨_, rfl, hinv', hhas, not_xaIsInternal_bounds⟩
    · refine ⟨xas, ?_, hinv, fun _ _ => Iff.rfl, hint⟩
      rw [shrinkLoop]
      dsimp only
      split_ifs <;> first | rfl | exact absurd (by tauto) hgo

/-! ### `xas_delete_node` -/

/-- The array without the empty node `n` below `p`. -/
def popChild (xa : Xarray) (n p : ℕ) : Xarray :=
  ((xa.free n).setSlot (some (p, (xa.node n).offset)) 0).setCount p (-1)

theorem popChild_node {n p x : ℕ} (hx : x ≠ n) (hp : p ≠ n) : (popChild xa n p).node x =
    if x = p then { xa.node p with
      slots := Function.update (xa.node p).slots (xa.node n).offset 0
      count := addChar (xa.node p).count (-1) } else xa.node x := by
  unfold popChild Xarray.setCount Xarray.setSlot Xarray.setNode Xarray.free
  by_cases hxp : x = p
  · subst hxp
    simp [Xarray.setNode, hx]
  · simp [Xarray.setNode, hx, hxp]

/-- **Taking out an empty node** keeps the invariant and the content. -/
theorem popChild_inv (hinv : Inv W xa pre) {n p : ℕ} (hn : n ∈ xa.live) (hc : (xa.node n).count = 0)
    (hp : (xa.node n).parent = p) (h0 : p ≠ 0) :
    Inv W (popChild xa n p) pre ∧ ∀ i a, Has (popChild xa n p) pre i a ↔ Has xa pre i a := by
  have hpar : ((view xa pre).cell n).parent = some p := by
    rw [← hp]
    exact if_neg (hp ▸ h0)
  obtain ⟨hpl, ho, hslot, hs, -⟩ := hinv.wf.up n hn _ hpar
  have hpn : p ≠ n := by
    rintro rfl
    omega
  have hz : ((view xa pre).cell n).size 6 = 0 := by rw [← hinv.wf.count n hn]; exact hc
  -- the parent's count is not zero: it counts this node
  have hcount : 0 < (xa.node p).count := by
    have := Cell.size_clear (b := 6) 0 ho (by rw [hslot]; rfl)
    rw [← hinv.wf.count _ hpl] at this
    show 0 < ((view xa pre).cell p).count
    omega
  have hle := hinv.count_le hpl
  have hagree : Agree (((view xa pre).setSlot p ((view xa pre).cell n).offset .empty
      (((view xa pre).cell p).count - 1)).free n) (view (popChild xa n p) pre) := by
    refine ⟨rfl, rfl, fun x hx => ?_⟩
    rw [Store.live_free, Store.live_setSlot, Finset.mem_erase] at hx
    rw [Store.cell_free, Store.cell_setSlot]
    show viewCell ((popChild xa n p).node x) (pre x) = _
    rw [popChild_node hx.1 hpn]
    by_cases hxp : x = p
    · subst hxp
      rw [if_pos rfl, if_pos rfl, addChar_neg_one hcount (by omega)]
      ext y
      all_goals try rfl
      simp only [viewCell, Cell.put, view, Function.update_apply]
      split_ifs <;> rfl
    · rw [if_neg hxp, if_neg hxp]
      rfl
  refine ⟨⟨hagree.wf (hinv.wf.removeChild hn hz hpar), fun x hx => ?_, fun x hx => ?_, hinv.track⟩,
    fun i a => hagree.holds.trans (hinv.wf.holds_removeChild hn hz hpar)⟩
  · exact hinv.addr x (Finset.mem_of_mem_erase hx)
  · obtain ⟨hxn, hxl⟩ := Finset.mem_erase.mp hx
    rw [popChild_node hxn hpn]
    split_ifs with hxp
    · rw [← hxp]; exact hinv.shift x hxl
    · exact hinv.shift x hxl

/-- The array without its last node. -/
theorem popRoot_inv (hinv : Inv W xa pre) {n : ℕ} (hn : n ∈ xa.live) (hc : (xa.node n).count = 0)
    (h0 : (xa.node n).parent = 0) : Inv W { xa.free n with head := 0 } pre ∧
      ∀ i a, Has { xa.free n with head := 0 } pre i a ↔ Has xa pre i a := by
  have hz : ((view xa pre).cell n).size 6 = 0 := by rw [← hinv.wf.count n hn]; exact hc
  have hroot : (view xa pre).root = .node n := (hinv.wf.top n hn (if_pos h0)).1
  obtain ⟨hwf, hhas⟩ := hinv.wf.removeRoot (by omega) hroot hz
  have hnode : ∀ x, x ≠ n → ({ xa.free n with head := 0 } : Xarray).node x = xa.node x := by
    intro x hx
    simp [Xarray.free, Xarray.setNode, hx]
  have hagree : Agree (((view xa pre).setRoot .empty).free n)
      (view { xa.free n with head := 0 } pre) := by
    refine ⟨rfl, rfl, fun x hx => ?_⟩
    show viewCell _ _ = viewCell _ _
    rw [hnode x (Finset.ne_of_mem_erase hx)]
  refine ⟨⟨hagree.wf hwf, fun x hx => ?_, fun x hx => ?_, hinv.track⟩,
    fun i a => hagree.holds.trans (hhas i a)⟩
  · exact hinv.addr x (Finset.mem_of_mem_erase hx)
  · rw [hnode x (Finset.ne_of_mem_erase hx)]
    exact hinv.shift x (Finset.mem_of_mem_erase hx)

theorem deleteNodeLoop_spec : ∀ {k node : ℕ} (xas : XaState), Inv W xas.xa pre →
    node ∈ xas.xa.live → xas.node = node → 2 * W + 6 ≤ k + (xas.xa.node node).shift →
    ∃ xas', Trims W pre xas.xa (deleteNodeLoop k xas node) xas'
  | 0, node, _, hinv, hn, _, hk => absurd (hinv.shift node hn) (by omega)
  | k + 1, node, xas, hinv, hn, hxn, hk => by
    have hsW := hinv.shift node hn
    have hint := not_xaIsInternal_of_live hinv hn
    rw [deleteNodeLoop]
    dsimp only
    by_cases hc : (xas.xa.node node).count = 0
    · rw [if_neg (not_not.mpr hc)]
      by_cases h0 : (xas.xa.node node).parent = 0
      · obtain ⟨hinv', hhas⟩ := popRoot_inv hinv hn hc h0
        rw [if_pos h0]
        exact ⟨_, rfl, hinv', hhas, not_xaIsInternal_bounds⟩
      · obtain ⟨hinv', hhas⟩ := popChild_inv hinv hn hc rfl h0
        obtain ⟨hpl, -, hs⟩ := hinv.parent hn h0
        have hne : (xas.xa.node node).parent ≠ node := by
          intro he
          rw [he] at hs
          omega
        have hshift : ((popChild xas.xa node (xas.xa.node node).parent).node
            (xas.xa.node node).parent).shift = (xas.xa.node node).shift + 6 := by
          rw [popChild_node hne hne, if_pos rfl]
          exact hs
        rw [if_neg h0]
        obtain ⟨xas', h⟩ := deleteNodeLoop_spec (k := k) ⟨popChild xas.xa node (xas.xa.node node).parent,
          xas.index, (xas.xa.node node).offset, (xas.xa.node node).parent, xas.alloc⟩ hinv'
          (Finset.mem_erase.mpr ⟨hne, hpl⟩) rfl (by rw [hshift]; omega)
        exact ⟨xas', h.of_has hhas⟩
    · rw [if_pos hc]
      by_cases h0 : (xas.xa.node node).parent = 0
      · rw [if_pos h0]
        have hroot : decode xas.xa.head = .node node := (hinv.wf.top node hn (if_pos h0)).1
        obtain ⟨hr, hrn⟩ := decode_eq_node.mp hroot
        unfold xasShrink
        rw [hxn]
        exact shrinkLoop_spec xas hinv hr hrn (by omega) (hxn ▸ hint)
      · rw [if_neg h0]
        exact ⟨xas, rfl, hinv, fun _ _ => Iff.rfl, hxn ▸ hint⟩

/-! ### `xas_store` -/

/-- The entry that was at the index, and the array with the new one there. -/
structure Stored (W : ℕ) (xa : Xarray) (pre : ℕ → ℕ) (index entry : ℕ) (xas' : XaState)
    (pre' : ℕ → ℕ) (e : ℕ) : Prop where
  inv : Inv W xas'.xa pre'
  old : ∀ a, Has xa pre index a ↔ e = a ∧ a ≠ 0
  put : Put xa pre index entry xas'.xa pre'
  noError : ¬ xaIsInternal xas'.node

/-- Storing what is there already. -/
theorem put_self {index e : ℕ} (hold : ∀ a, Has xa pre index a ↔ e = a ∧ a ≠ 0) :
    Put xa pre index e xa pre := by
  intro i a
  by_cases hi : i = index
  · rw [if_pos hi, hi, hold a]
  · rw [if_neg hi]

theorem Put.of_has {index entry : ℕ} {xa₁ : Xarray} {pre₁ : ℕ → ℕ}
    (hhas : ∀ i a, Has xa₁ pre₁ i a ↔ Has xa pre i a) (h : Put xa₁ pre₁ index entry xa' pre') :
    Put xa pre index entry xa' pre' := by
  intro i a
  rw [h i a, hhas i a]

theorem not_xasInvalid (hn : xas.node = 0 ∨ Addr xas.node) : ¬ xasInvalid xas := by
  unfold xasInvalid
  rcases hn with h0 | ⟨-, h4⟩
  · omega
  · omega

/-- The internal error entry. -/
theorem xaIsInternal_xaError (h4 : 2 ≤ W) (errno : ℕ) : xaIsInternal (xaError W errno) := by
  have hmod := Nat.mod_mod_of_dvd (4 * (2 ^ W - errno)) (Nat.pow_dvd_pow 2 h4)
  unfold xaIsInternal xaError
  omega

/-- The counts of a leaf are written only where one of them changes. -/
theorem updateNode_eq (xas : XaState) (fuel o entry : ℕ) {n : ℕ} (count values : ℤ)
    (hn : n ≠ 0) (hc : ¬ count < 0) (hcount : (xas.xa.node n).count ≤ 255) :
    ∃ v, updateNode fuel { xas with xa := xas.xa.setSlot (some (n, o)) entry } n count values =
      some { xas with xa := putLeaf xas.xa n o entry count v } := by
  unfold updateNode
  by_cases h0 : count = 0 ∧ values = 0
  · refine ⟨(xas.xa.node n).nrValues, ?_⟩
    rw [if_pos (Or.inr h0), h0.1]
    unfold putLeaf Xarray.setSlot Xarray.setNode
    simp [addChar_zero hcount]
  · refine ⟨addChar (xas.xa.node n).nrValues values, ?_⟩
    rw [if_neg (not_or.mpr ⟨hn, h0⟩)]
    dsimp only
    rw [if_neg hc]
    unfold putLeaf Xarray.setSlot Xarray.setNode
    simp

/-- **`xas_store`** of an entry, from the start of a walk: it fails with the content as before, or the
entry is put at the index and the old one returned. -/
theorem xasStore_entry (hm : Malloc malloc) (hW : W ≤ 64) (h4 : 2 ≤ W) (hr : Ready W xas pre)
    (hi : xas.index < 2 ^ W) (hn : xas.node = XAS_RESTART) {entry fuel : ℕ} (h0 : entry ≠ 0)
    (hentry : ¬ xaIsNode entry) (hf : W + 6 ≤ fuel) :
    ∃ xas' pre' e, xasStore W malloc fuel xas entry = some (xas', e) ∧
      ((Keeps W xas pre xas' pre' ∧ Failed W xas' ∧ e = 0) ∨
        Stored W xas.xa pre xas.index entry xas' pre' e) := by
  obtain ⟨xas', pre', e, heq, hkeep, hcr⟩ := xasCreate_spec hm hW hr hi hn hf
  unfold xasStore
  rw [if_pos h0, show decide (¬ xaIsNode entry) = true from decide_eq_true hentry, heq]
  simp only [Option.bind_eq_bind, Option.bind_some, if_neg h0]
  cases hcr with
  | failed hfail =>
    have hinv : xasInvalid xas' := by
      have hint := xaIsInternal_xaError h4 ENOMEM
      unfold xaIsInternal at hint
      unfold xasInvalid
      rw [hfail.node]
      omega
    rw [if_pos hinv]
    exact ⟨xas', pre', 0, rfl, Or.inl ⟨hkeep, hfail, rfl⟩⟩
  | head hn0 hhead hi0 =>
    have hidx : xas.index = 0 := hkeep.index ▸ hi0
    have hold : ∀ a, Has xas.xa pre xas.index a ↔ xas'.xa.head = a ∧ a ≠ 0 := by
      intro a
      rw [← hkeep.has, has_head hhead hkeep.ready.inv, hidx]
      simp
    have hint : ¬ xaIsInternal xas'.node := by rw [hn0]; decide
    rw [if_neg (not_xasInvalid (Or.inl hn0))]
    by_cases he : xas'.xa.head = entry
    · rw [if_pos he]
      refine ⟨xas', pre', _, rfl, Or.inr ⟨hkeep.ready.inv, hold, ?_, hint⟩⟩
      rw [he] at hold
      exact Put.of_has hkeep.has (put_self fun a => (hkeep.has _ _).trans (hold a))
    · obtain ⟨hinv, hput⟩ := setHead_inv hkeep.ready.inv hhead hidx hentry
      rw [if_neg he, if_neg hhead, hn0]
      refine ⟨{ xas' with xa := { xas'.xa with head := entry } }, pre', xas'.xa.head, ?_,
        Or.inr ⟨hinv, hold, Put.of_has hkeep.has hput, hint⟩⟩
      unfold updateNode
      simp [Xarray.setSlot, hn0]
  | leaf hslot hleaf =>
    have hinv := hkeep.ready.inv
    have hnode := hinv.leaf_slot hslot.live hslot.offset_lt hleaf
    have haddr := hinv.addr _ hslot.live
    have hold : ∀ a, Has xas.xa pre xas.index a ↔
        (xas'.xa.node xas'.node).slots xas'.offset = a ∧ a ≠ 0 := by
      intro a
      rw [← hkeep.has, ← hkeep.index]
      exact hslot.has_iff hinv hnode
    have hint := not_xaIsInternal_of_live hinv hslot.live
    rw [if_neg (not_xasInvalid (Or.inr haddr))]
    by_cases he : (xas'.xa.node xas'.node).slots xas'.offset = entry
    · rw [if_pos he]
      refine ⟨xas', pre', _, rfl, Or.inr ⟨hinv, hold, ?_, hint⟩⟩
      rw [he] at hold
      exact Put.of_has hkeep.has (put_self fun a => (hkeep.has _ _).trans (hold a))
    · rw [if_neg he, if_neg hnode]
      simp only [if_pos haddr.ne_zero]
      have hle := hinv.count_le hslot.live
      obtain ⟨v, hv⟩ := updateNode_eq xas' fuel xas'.offset entry
        ((if (xas'.xa.node xas'.node).slots xas'.offset = 0 then 1 else 0) - 0)
        ((if xaIsValue ((xas'.xa.node xas'.node).slots xas'.offset) then 0 else 1) -
          (if xaIsValue entry then 0 else 1)) haddr.ne_zero (by split_ifs <;> decide) (by omega)
      obtain ⟨hinv', hput⟩ := putLeaf_inv hinv v hslot hleaf hentry
        (by rw [if_neg h0])
      rw [hkeep.index] at hput
      refine ⟨{ xas' with xa := _ }, pre', _, ?_, Or.inr ⟨hinv', hold, Put.of_has hkeep.has hput, hint⟩⟩
      rw [hv]
      rfl

/-- **`xas_store`** of `NULL` on a new state never fails: it returns the entry at the index and leaves
the index empty. -/
theorem xasStore_null (malloc : ℕ → Finset ℕ → ℕ) (hinv : Inv W xa pre) (index : ℕ) {fuel : ℕ}
    (hf : 2 * W + 6 ≤ fuel) : ∃ xas' e, xasStore W malloc fuel (xaState xa index) 0 = some (xas', e) ∧
      Stored W xa pre index 0 xas' pre e := by
  obtain ⟨n, o, e, heq, hfound⟩ := xasLoad_spec hinv (i := index) (show W < fuel by omega)
  have hold := fun a => hfound.has_iff hinv (a := a)
  have hnone : e = 0 → Put xa pre index 0 xa pre := fun h0 => put_self (h0 ▸ hold)
  unfold xasStore
  rw [if_neg (not_not.mpr rfl), heq]
  simp only [Option.bind_eq_bind, Option.bind_some, if_true]
  cases hfound with
  | beyond hno =>
    have hbounds : xasInvalid ⟨xa, index, o, XAS_BOUNDS, 0⟩ := by
      show 1 % 4 ≠ 0
      decide
    rw [if_pos hbounds]
    exact ⟨_, _, rfl, hinv, hold, hnone rfl, not_xaIsInternal_bounds⟩
  | head hr hi =>
    have hint : ¬ xaIsInternal 0 := by decide
    rw [if_neg (not_xasInvalid (Or.inl rfl))]
    by_cases hz : xa.head = 0
    · rw [if_pos hz]
      exact ⟨_, _, rfl, hinv, hold, hnone hz, hint⟩
    · rw [if_neg hz]
      obtain ⟨xa₁, hmarks, hu⟩ := xasInitMarks_spec ⟨xa, index, o, 0, 0⟩ hinv (Or.inl rfl)
        (show W < fuel by omega)
      have hr₁ : ¬ xaIsNode xa₁.head := hu.head ▸ hr
      obtain ⟨hinv', hput⟩ := setHead_inv (hu.inv hinv) hr₁ hi not_xaIsNode_zero
      rw [hmarks]
      simp only [Option.bind_some, if_neg hr]
      refine ⟨⟨{ xa₁ with head := 0 }, index, o, 0, 0⟩, xa.head, ?_, hinv', hold,
        Put.of_has (fun _ _ => hu.has) hput, hint⟩
      unfold updateNode
      simp [Xarray.setSlot]
  | node hslot hnode =>
    have haddr := hinv.addr n hslot.live
    have hint := not_xaIsInternal_of_live hinv hslot.live
    rw [if_neg (not_xasInvalid (Or.inr haddr))]
    by_cases hz : (xa.node n).slots o = 0
    · rw [if_pos hz]
      exact ⟨_, _, rfl, hinv, hold, hnone hz, hint⟩
    · rw [if_neg hz]
      obtain ⟨xa₁, hmarks, hu⟩ := xasInitMarks_spec ⟨xa, index, o, n, 0⟩ hinv
        (Or.inr hslot.live) (show W < fuel by omega)
      have hinv₁ := hu.inv hinv
      have hslot₁ := hslot.unmarked hu
      have hz₁ : (xa₁.node n).slots o ≠ 0 := by rw [hu.slots hslot.live]; exact hz
      have hnode₁ : ¬ xaIsNode ((xa₁.node n).slots o) := by rw [hu.slots hslot.live]; exact hnode
      -- only a leaf holds an entry
      have hleaf : (xa₁.node n).shift = 0 :=
        hinv₁.wf.leaf n hslot₁.live o hslot₁.offset_lt _ (decode_item hz₁ hnode₁)
      rw [hmarks]
      simp only [Option.bind_some, if_neg hnode, if_pos haddr.ne_zero, if_neg hz]
      generalize (if xaIsValue ((xa.node n).slots o) then (0 : ℤ) else 1) -
        (if xaIsValue 0 then 0 else 1) = values
      obtain ⟨hinv₂, hput⟩ := putLeaf_inv hinv₁ (addChar (xa₁.node n).nrValues values) hslot₁ hleaf
        not_xaIsNode_zero (show -1 = _ by rw [if_neg hz₁, if_pos rfl]; rfl)
      obtain ⟨xas', h⟩ := deleteNodeLoop_spec (k := fuel)
        ⟨putLeaf xa₁ n o 0 (-1) (addChar (xa₁.node n).nrValues values), index, o, n, 0⟩ hinv₂
        hslot₁.live rfl (by omega)
      refine ⟨xas', _, ?_, h.inv, hold, fun i a => ?_, h.noError⟩
      · have hupd : updateNode fuel ⟨xa₁.setSlot (some (n, o)) 0, index, o, n, 0⟩ n (0 - 1) values =
            some xas' := by
          unfold updateNode
          rw [if_neg (by simp [haddr.ne_zero])]
          dsimp only
          rw [if_pos (by decide), ← h.eq]
          unfold putLeaf Xarray.setSlot Xarray.setNode
          simp
        rw [hupd]
        rfl
      · rw [h.has i a]
        exact Put.of_has (fun _ _ => hu.has) hput i a

/-! ### `xa_store` and `xa_erase` -/

/-- What the loop of `__xa_store` ends with: an allocation failed and the content is as before, or the
entry is stored. -/
inductive Ends (W : ℕ) (malloc : ℕ → Finset ℕ → ℕ) (xas : XaState) (pre : ℕ → ℕ) (entry : ℕ)
    (xas' : XaState) (pre' : ℕ → ℕ) (e : ℕ) : Prop
  | nomem (t : ℕ) (L : Finset ℕ) (hfail : malloc t L = 0) (hn : xas'.node = xaError W ENOMEM)
      (he : e = 0) (hinv : Inv W xas'.xa pre')
      (hhas : ∀ i a, Has xas'.xa pre' i a ↔ Has xas.xa pre i a) : Ends W malloc xas pre entry xas' pre' e
  | stored (h : Stored W xas.xa pre xas.index entry xas' pre' e) :
      Ends W malloc xas pre entry xas' pre' e

/-- **The loop of `__xa_store`** ends: with every new try the nodes along the way get more. -/
theorem storeLoop_spec (hm : Malloc malloc) (hW : W ≤ 64) (h4 : 2 ≤ W) {entry fuel : ℕ}
    (h0 : entry ≠ 0) (hentry : ¬ xaIsNode entry) (hf : W + 6 ≤ fuel) : ∀ {k : ℕ} {xas : XaState}
    {pre : ℕ → ℕ}, Ready W xas pre → xas.index < 2 ^ W → xas.node = XAS_RESTART →
    2 * W + 1 < k + potential xas pre → ∃ xas' pre' e,
      storeLoop W malloc fuel entry k xas = some (xas', e) ∧ Ends W malloc xas pre entry xas' pre' e
  | 0, xas, pre, hr, _, _, hk => by
    have hcard := card_path_le hr.inv xas.index
    unfold potential at hk
    split_ifs at hk <;> omega
  | k + 1, xas, pre, hr, hi, hn, hk => by
    obtain ⟨xas₁, pre₁, e, heq, hres⟩ := xasStore_entry hm hW h4 hr hi hn h0 hentry hf
    rw [storeLoop, heq]
    simp only [Option.bind_eq_bind, Option.bind_some]
    rcases hres with ⟨hkeep, hfail, he⟩ | hst
    · rw [if_neg hkeep.ready.inv.track]
      simp only [xasNomem, hfail.node, ne_eq, not_true_eq_false, if_false, mallocNode]
      generalize hp : malloc xas₁.xa.calls xas₁.xa.live = p
      by_cases hp0 : p = 0
      · simp only [if_pos hp0]
        have hu : Unmarked xas₁.xa { xas₁.xa with calls := xas₁.xa.calls + 1 } :=
          ⟨rfl, rfl, fun _ _ => rfl, id⟩
        exact ⟨_, pre₁, e, rfl, .nomem _ _ (hp.trans hp0) rfl he (hu.inv hkeep.ready.inv)
          fun i a => hu.has.trans (hkeep.has i a)⟩
      · simp only [if_neg hp0, if_true]
        have hfresh : Fresh xas₁.xa.live p := by
          have := hm xas₁.xa.calls xas₁.xa.live
          rw [hp] at this
          exact this.resolve_left hp0
        -- the node at hand is outside of the tree
        have hu : Unmarked xas₁.xa { xas₁.xa with
            calls := xas₁.xa.calls + 1, node := Function.update xas₁.xa.node p zeroNode } := by
          refine ⟨rfl, rfl, fun n hn' => ?_, id⟩
          simp [ne_of_mem_of_not_mem hn' hfresh.2]
        have hready : Ready W ⟨{ xas₁.xa with
            calls := xas₁.xa.calls + 1, node := Function.update xas₁.xa.node p zeroNode },
            xas₁.index, xas₁.offset, XAS_RESTART, p⟩ pre₁ := by
          refine ⟨hu.inv hkeep.ready.inv, fun _ => ⟨hfresh, ?_⟩⟩
          show Function.update xas₁.xa.node p zeroNode p = zeroNode
          simp
        have hgrow : potential xas pre < potential ⟨{ xas₁.xa with
            calls := xas₁.xa.calls + 1, node := Function.update xas₁.xa.node p zeroNode },
            xas₁.index, xas₁.offset, XAS_RESTART, p⟩ pre₁ := by
          have := hkeep.grows
          unfold potential at this ⊢
          rw [hfail.alloc, if_pos rfl] at this
          rw [path_unmarked hu, if_neg hp0]
          dsimp only
          omega
        have hidx : xas₁.index < 2 ^ W := hkeep.index ▸ hi
        obtain ⟨xas', pre', e', heq', hends⟩ := storeLoop_spec hm hW h4 h0 hentry hf (k := k) hready
          hidx rfl (by omega)
        refine ⟨xas', pre', e', heq', ?_⟩
        have hsame : ∀ i a, Has _ pre₁ i a ↔ Has xas.xa pre i a := fun i a =>
          Iff.trans hu.has (hkeep.has i a)
        cases hends with
        | nomem t L hz hn' he' hinv hhas =>
          exact .nomem t L hz hn' he' hinv fun i a => (hhas i a).trans (hsame i a)
        | stored h =>
          have hold := h.old
          have hput := h.put
          dsimp only at hold hput
          rw [hkeep.index] at hold hput
          exact .stored ⟨h.inv, fun a => (hsame _ a).symm.trans (hold a), Put.of_has hsame hput,
            h.noError⟩
    · rw [if_neg hst.inv.track]
      have hne : xas₁.node ≠ xaError W ENOMEM := by
        intro he
        exact hst.noError (he ▸ xaIsInternal_xaError h4 ENOMEM)
      simp only [xasNomem, if_pos hne]
      exact ⟨_, pre₁, e, rfl, .stored ⟨hst.inv, hst.old, hst.put, hst.noError⟩⟩

/-- The result of a store that did not fail. -/
theorem xasResult_stored {index entry e : ℕ} (h : Stored W xa pre index entry xas' pre' e)
    (hplain : ∀ i a, Has xa pre i a → ¬ xaIsInternal a) : xasResult W xas' e = e := by
  have hz : e ≠ XA_ZERO_ENTRY := by
    rintro rfl
    exact hplain index _ ((h.old _).mpr ⟨rfl, by decide⟩) (by decide)
  unfold xasResult
  rw [if_neg hz, if_neg fun herr => h.noError herr.1]

/-- **`xa_store`** returns. It gives `XA_ERROR(-ENOMEM)`, after an allocation failed, with the content
as before; or the old entry, and the new one is at the index. -/
theorem xaStore_spec (hm : Malloc malloc) (hW : W = 32 ∨ W = 64) (hinv : Inv W xa pre)
    (hplain : ∀ i a, Has xa pre i a → ¬ xaIsInternal a) {index entry fuel : ℕ} (hi : index < 2 ^ W)
    (h0 : entry ≠ 0) (hentry : ¬ xaIsInternal entry) (hf : 2 * W + 6 ≤ fuel) :
    ∃ xa' pre' e, xaStore W malloc fuel xa index entry = some (xa', e) ∧ Inv W xa' pre' ∧
      ((e = xaError W ENOMEM ∧ (∃ t L, malloc t L = 0) ∧ ∀ i a, Has xa' pre' i a ↔ Has xa pre i a) ∨
        ((∀ a, Has xa pre index a ↔ e = a ∧ a ≠ 0) ∧ Put xa pre index entry xa' pre')) := by
  have hready : Ready W (xaState xa index) pre := ⟨hinv, fun h => absurd rfl h⟩
  obtain ⟨xas', pre', e, heq, hends⟩ := storeLoop_spec hm (by omega) (by omega) h0
    (fun h => hentry h.1) (show W + 6 ≤ fuel by omega) (k := fuel) hready hi rfl (by omega)
  unfold xaStore
  rw [if_neg fun h => hentry h.1]
  simp only [Option.bind_eq_bind, if_neg fun h : xa.trackFree ∧ entry = 0 => h0 h.2, heq,
    Option.bind_some]
  cases hends with
  | nomem t L hfail hn he hinv' hhas =>
    have herr : xasError W xas' := by
      unfold xasError xaIsErr
      rw [hn]
      refine ⟨xaIsInternal_xaError (by omega) ENOMEM, ?_⟩
      rcases hW with rfl | rfl <;> decide
    refine ⟨xas'.xa, pre', _, rfl, hinv', Or.inl ⟨?_, ⟨t, L, hfail⟩, hhas⟩⟩
    unfold xasResult
    rw [he, if_neg (by decide), if_pos herr, hn]
  | stored h =>
    rw [xasResult_stored h hplain]
    exact ⟨xas'.xa, pre', e, rfl, h.inv, Or.inr ⟨h.old, h.put⟩⟩

/-- **`xa_erase`** returns the entry at the index and leaves the index empty. -/
theorem xaErase_spec (malloc : ℕ → Finset ℕ → ℕ) (hinv : Inv W xa pre)
    (hplain : ∀ i a, Has xa pre i a → ¬ xaIsInternal a) (index : ℕ) {fuel : ℕ}
    (hf : 2 * W + 6 ≤ fuel) : ∃ xa' e, xaErase W malloc fuel xa index = some (xa', e) ∧
      Inv W xa' pre ∧ (∀ a, Has xa pre index a ↔ e = a ∧ a ≠ 0) ∧ Put xa pre index 0 xa' pre := by
  obtain ⟨xas', e, heq, h⟩ := xasStore_null malloc hinv index hf
  unfold xaErase
  rw [heq]
  simp only [Option.bind_eq_bind, Option.bind_some, xasResult_stored h hplain]
  exact ⟨xas'.xa, e, rfl, h.inv, h.old, h.put⟩

end HardStack.XArray.Store
