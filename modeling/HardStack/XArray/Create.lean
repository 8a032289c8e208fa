import HardStack.XArray.Layout

/-! # Creating the slot of an index

`xas_expand` puts nodes on top until the index is in range and `xas_create` adds the nodes that are
missing on the way down; neither changes the content. An allocation may fail at any point. What was
added until then stays, and the number of nodes along the way has grown if a node was at hand in
`xa_alloc`: this is what the loop of `__xa_store` makes its progress by. -/

namespace HardStack.XArray.Create

open HardStack.Lib.Trie HardStack.XArray.Model HardStack.XArray.Layout

variable {W : ℕ} {xa xa' : Xarray} {xas xas' : XaState} {pre pre' : ℕ → ℕ}
  {malloc : ℕ → Finset ℕ → ℕ}

/-- An address for a new node that is not in use. -/
def Fresh (L : Finset ℕ) (p : ℕ) : Prop := Addr p ∧ p ∉ L

/-- An allocation fails, or gives the address of a new node. -/
def Malloc (malloc : ℕ → Finset ℕ → ℕ) : Prop := ∀ t L, malloc t L = 0 ∨ Fresh L (malloc t L)

/-- The invariant with a node at hand in `xa_alloc`, if there is one. -/
structure Ready (W : ℕ) (xas : XaState) (pre : ℕ → ℕ) : Prop where
  inv : Inv W xas.xa pre
  alloc : xas.alloc ≠ 0 → Fresh xas.xa.live xas.alloc ∧ xas.xa.node xas.alloc = zeroNode

/-! ### The nodes along the way -/

/-- The nodes in the first slots and those of the index. -/
def path (xa : Xarray) (pre : ℕ → ℕ) (i : ℕ) : Finset ℕ :=
  xa.live.filter fun n => pre n = 0 ∨ pre n = i / 2 ^ ((xa.node n).shift + 6)

/-- A node is determined by its shift and its leading digits, so that there are few of them. -/
theorem card_path_le (hinv : Inv W xa pre) (i : ℕ) : (path xa pre i).card ≤ 2 * W := by
  have hcard : (Finset.range W ×ˢ (Finset.univ : Finset Bool)).card = 2 * W := by
    rw [Finset.card_product, Finset.card_range, Finset.card_univ, Fintype.card_bool, mul_comm]
  rw [← hcard]
  refine Finset.card_le_card_of_injOn (fun n => ((xa.node n).shift, decide (pre n = 0))) ?_ ?_
  · intro n hn
    have hl := (Finset.mem_filter.mp hn).1
    exact Finset.mem_coe.mpr (Finset.mem_product.mpr
      ⟨Finset.mem_range.mpr (hinv.shift n hl), Finset.mem_univ _⟩)
  · intro n hn m hm heq
    obtain ⟨hnl, hn⟩ := Finset.mem_filter.mp hn
    obtain ⟨hml, hm⟩ := Finset.mem_filter.mp hm
    simp only [Prod.mk.injEq, decide_eq_decide] at heq
    refine hinv.wf.unique (by omega) hnl hml heq.1 ?_
    show pre n = pre m
    by_cases h0 : pre n = 0
    · rw [h0, heq.2.mp h0]
    · rw [hn.resolve_left h0, hm.resolve_left fun h => h0 (heq.2.mpr h), heq.1]

/-- A new node along the way. -/
theorem card_path_grow {i p d : ℕ} (hp : p ∉ xa.live) (hlive : xa'.live = insert p xa.live)
    (hs : ∀ x ∈ xa.live, (xa'.node x).shift = (xa.node x).shift)
    (hd : d = 0 ∨ d = i / 2 ^ ((xa'.node p).shift + 6)) :
    (path xa pre i).card + 1 ≤ (path xa' (Function.update pre p d) i).card := by
  have hnot : p ∉ path xa pre i := fun h => hp (Finset.mem_filter.mp h).1
  rw [← Finset.card_insert_of_notMem hnot]
  refine Finset.card_le_card fun x hx => ?_
  unfold path
  rw [Finset.mem_filter, hlive]
  by_cases hxp : x = p
  · subst hxp
    rw [Function.update_self]
    exact ⟨Finset.mem_insert_self _ _, hd⟩
  · obtain ⟨hl, h⟩ := Finset.mem_filter.mp ((Finset.mem_insert.mp hx).resolve_left hxp)
    rw [Function.update_of_ne hxp, hs x hl]
    exact ⟨Finset.mem_insert_of_mem hl, h⟩

theorem path_unmarked (h : Unmarked xa xa') (i : ℕ) : path xa' pre i = path xa pre i := by
  unfold path
  rw [h.live]
  refine Finset.filter_congr fun n hn => ?_
  rw [h.shift hn]

/-- The nodes along the way, with the one at hand. -/
def potential (xas : XaState) (pre : ℕ → ℕ) : ℕ :=
  (path xas.xa pre xas.index).card + if xas.alloc = 0 then 0 else 1

/-- What creating slots keeps: the content and the index; and the nodes do not get fewer. -/
structure Keeps (W : ℕ) (xas : XaState) (pre : ℕ → ℕ) (xas' : XaState) (pre' : ℕ → ℕ) : Prop where
  ready : Ready W xas' pre'
  has : ∀ i a, Has xas'.xa pre' i a ↔ Has xas.xa pre i a
  index : xas'.index = xas.index
  grows : potential xas pre ≤ potential xas' pre'

theorem Keeps.trans {xas'' : XaState} {pre'' : ℕ → ℕ} (h : Keeps W xas pre xas' pre')
    (h' : Keeps W xas' pre' xas'' pre'') : Keeps W xas pre xas'' pre'' :=
  ⟨h'.ready, fun i a => (h'.has i a).trans (h.has i a), h'.index.trans h.index,
    h.grows.trans h'.grows⟩

/-- A step that uses up the node at hand, if there is one, and adds a node. -/
theorem Keeps.of_push (hinv : Inv W xas'.xa pre')
    (hhas : ∀ i a, Has xas'.xa pre' i a ↔ Has xas.xa pre i a) (hindex : xas'.index = xas.index)
    (halloc : xas'.alloc = 0) (hcard : (path xas.xa pre xas.index).card + 1 ≤
      (path xas'.xa pre' xas.index).card) : Keeps W xas pre xas' pre' := by
  refine ⟨⟨hinv, fun h => absurd halloc h⟩, hhas, hindex, ?_⟩
  unfold potential
  rw [halloc, hindex, if_pos rfl]
  split_ifs <;> omega

/-- The walk does not look at the node and offset it starts from. -/
theorem Keeps.of_eq (hr : Ready W xas pre) (hxa : xas'.xa = xas.xa) (hindex : xas'.index = xas.index)
    (halloc : xas'.alloc = xas.alloc) : Keeps W xas pre xas' pre := by
  refine ⟨⟨hxa ▸ hr.inv, ?_⟩, fun i a => by rw [hxa], hindex, ?_⟩
  · rw [hxa, halloc]
    exact hr.alloc
  · unfold potential
    rw [hxa, hindex, halloc]

/-! ### `xas_alloc` -/

/-- The array with a new zeroed node. -/
def attach (xa : Xarray) (p parent shift offset calls : ℕ) : Xarray :=
  { xa with
    calls := calls
    live := insert p xa.live
    node := fun x =>
      if x = p then ⟨shift % 256, if parent = 0 then 0 else offset % 256, 0, 0, parent, fun _ => 0,
        fun _ _ => false⟩
      else if x = parent ∧ parent ≠ 0 then { xa.node x with count := addChar (xa.node x).count 1 }
      else xa.node x }

/-- The state of a failed allocation. -/
structure Failed (W : ℕ) (xas : XaState) : Prop where
  node : xas.node = xaError W ENOMEM
  alloc : xas.alloc = 0

theorem attach_of_zero (xa : Xarray) {p : ℕ} (parent shift offset : ℕ) (hz : xa.node p = zeroNode)
    (hp : parent ≠ p) :
    (((if parent ≠ 0 then
          (Xarray.setNode { xa with live := insert p xa.live } p fun x =>
            { x with offset := offset % 256 }).setCount parent 1
        else { xa with live := insert p xa.live }) : Xarray).setNode p fun x =>
      { x with shift := shift % 256, count := 0, nrValues := 0, parent := parent }) =
    attach xa p parent shift offset xa.calls := by
  unfold attach Xarray.setCount Xarray.setNode
  by_cases h0 : parent = 0
  · subst h0
    simp only [ne_eq, not_true_eq_false, if_false, and_false, if_true]
    congr 1
    funext x
    by_cases hx : x = p
    · subst hx
      simp [hz, zeroNode]
    · simp [hx]
  · simp only [ne_eq, h0, not_false_eq_true, if_true, and_true, if_false]
    congr 1
    funext x
    by_cases hx : x = p
    · subst hx
      simp [hz, zeroNode, Ne.symm hp]
    · by_cases hxp : x = parent
      · subst hxp
        simp [hx]
      · simp [hx, hxp]

/-- **`xas_alloc`** fails only when there is no node at hand; otherwise the node is attached. -/
theorem xasAlloc_spec (hm : Malloc malloc) (hr : Ready W xas pre)
    (hn : xas.node = 0 ∨ xas.node ∈ xas.xa.live) (shift : ℕ) :
    (∃ xas', xasAlloc W malloc xas shift = (xas', 0) ∧ Keeps W xas pre xas' pre ∧ Failed W xas') ∨
    ∃ p c, Fresh xas.xa.live p ∧ xasAlloc W malloc xas shift =
      ({ xas with xa := attach xas.xa p xas.node shift xas.offset c, alloc := 0 }, p) := by
  have hvalid : ¬ xasInvalid xas := by
    unfold xasInvalid
    rcases hn with h0 | hl
    · omega
    · have := (hr.inv.addr _ hl).2
      omega
  have hne : ∀ {p}, Fresh xas.xa.live p → xas.node ≠ p := by
    intro p hp heq
    rcases hn with h0 | hl
    · exact hp.1.ne_zero (heq.symm.trans h0)
    · exact hp.2 (heq ▸ hl)
  unfold xasAlloc
  rw [if_neg hvalid]
  by_cases ha : xas.alloc = 0
  · simp only [ne_eq, ha, not_true_eq_false, if_false, mallocNode]
    generalize hq : malloc xas.xa.calls xas.xa.live = q
    by_cases hq0 : q = 0
    · left
      simp only [if_pos hq0]
      refine ⟨_, rfl, ?_, rfl, rfl⟩
      have hu : Unmarked xas.xa { xas.xa with calls := xas.xa.calls + 1 } :=
        ⟨rfl, rfl, fun _ _ => rfl, id⟩
      refine ⟨⟨hu.inv hr.inv, fun h => absurd rfl h⟩, fun i a => hu.has, rfl, ?_⟩
      unfold potential
      rw [path_unmarked hu, ha]
    · right
      have hf : Fresh xas.xa.live q := by
        have := hm xas.xa.calls xas.xa.live
        rw [hq] at this
        exact this.resolve_left hq0
      refine ⟨q, xas.xa.calls + 1, hf, ?_⟩
      simp only [if_neg hq0]
      refine Prod.ext ?_ rfl
      simp only [XaState.mk.injEq, and_true]
      rw [attach_of_zero { xas.xa with
        calls := xas.xa.calls + 1, node := Function.update xas.xa.node q zeroNode }
        xas.node shift xas.offset (by simp) (hne hf)]
      unfold attach
      simp only [Xarray.mk.injEq, true_and]
      refine ⟨?_, trivial⟩
      funext x
      by_cases hx : x = q
      · simp [hx]
      · simp [hx]
  · right
    obtain ⟨hf, hz⟩ := hr.alloc ha
    refine ⟨xas.alloc, xas.xa.calls, hf, ?_⟩
    simp only [ne_eq, ha, not_false_eq_true, if_true, if_false]
    refine Prod.ext ?_ rfl
    simp only [XaState.mk.injEq, and_true]
    rw [← attach_of_zero xas.xa xas.node shift xas.offset hz (hne hf)]

/-! ### `xas_expand` -/

/-- Without tracking, the new node's marks are all that changes. -/
theorem expandMarks_eq {xa : Xarray} (ht : ¬ xa.trackFree) (n : ℕ) : ∃ m, expandMarks xa n =
    xa.setNode n fun x => { x with marks := m } := by
  unfold expandMarks
  generalize List.range (XA_MARK_MAX + 1) = l
  induction l generalizing xa with
  | nil => exact ⟨(xa.node n).marks, by simp [Xarray.setNode]⟩
  | cons mark l ih =>
    rw [List.foldl_cons, if_neg fun h => ht h.1]
    by_cases hmark : xa.marked mark
    · rw [if_pos hmark]
      obtain ⟨m, hm⟩ := ih (show ¬ (xa.nodeMark n mark 0 true).trackFree from ht)
      refine ⟨m, hm.trans ?_⟩
      simp [Xarray.setNode, Xarray.nodeMark]
    · rw [if_neg hmark]
      exact ih ht

/-- One round: the array with the new node `p` on top. -/
def pushTop (xa : Xarray) (p shift offset calls : ℕ) : Xarray :=
  let head := xa.head
  let xa := attach xa p 0 shift offset calls
  let xa := xa.setNode p fun x => { x with
    count := 1
    nrValues := if xaIsValue head then 1 else x.nrValues
    slots := Function.update x.slots 0 head }
  let xa := expandMarks xa p
  let xa := if xaIsNode head then
      xa.setNode (xaToNode head) fun x => { x with offset := 0, parent := p }
    else xa
  { xa with head := xaMkNode p }

section

variable {p shift offset calls : ℕ}

theorem pushTop_eq (p shift offset calls : ℕ) (ht : ¬ xa.trackFree) : ∃ v m, pushTop xa p shift offset calls =
    { xa with
      head := xaMkNode p
      calls := calls
      live := insert p xa.live
      node := fun x =>
        if xaIsNode xa.head ∧ x = xaToNode xa.head then
          { if x = p then ⟨shift % 256, 0, 1, v, 0, Function.update (fun _ => 0) 0 xa.head, m⟩
            else xa.node x with offset := 0, parent := p }
        else if x = p then ⟨shift % 256, 0, 1, v, 0, Function.update (fun _ => 0) 0 xa.head, m⟩
        else xa.node x } := by
  refine ⟨if xaIsValue xa.head then 1 else 0, ?_⟩
  unfold pushTop
  dsimp only
  generalize hxa₁ : (attach xa p 0 shift offset calls).setNode p (fun x => { x with
    count := 1
    nrValues := if xaIsValue xa.head then 1 else x.nrValues
    slots := Function.update x.slots 0 xa.head }) = xa₁
  have ht' : ¬ xa₁.trackFree := by rw [← hxa₁]; exact ht
  obtain ⟨m, hm⟩ := expandMarks_eq ht' p
  refine ⟨m, ?_⟩
  rw [hm, ← hxa₁]
  by_cases hr : xaIsNode xa.head
  · simp only [hr, if_true, true_and, and_true, Xarray.setNode, attach, Xarray.mk.injEq]
    funext x
    by_cases hx : x = xaToNode xa.head <;> by_cases hxp : x = p
    · subst hx; subst hxp; simp
    · subst hx; simp [hxp]
    · subst hxp; simp [hx]
    · simp [hx, hxp]
  · simp only [hr, false_and, if_false, true_and, and_true, Xarray.setNode, attach,
      Xarray.mk.injEq]
    funext x
    by_cases hxp : x = p
    · subst hxp; simp
    · simp [hxp]

/-- The shift of a new node on top. -/
structure TopShift (xa : Xarray) (shift : ℕ) : Prop where
  used : xa.head ≠ 0
  item : ¬ xaIsNode xa.head → shift = 0
  node : xaIsNode xa.head → shift = (xa.node (xaToNode xa.head)).shift + 6

/-- **A new node on top** keeps the invariant and the content. -/
theorem pushTop_inv (hinv : Inv W xa pre) (hW : W ≤ 64) (hf : Fresh xa.live p)
    (ht : TopShift xa shift) (hshift : shift < W) (offset calls : ℕ) :
    let xa' := pushTop xa p shift offset calls
    Inv W xa' (Function.update pre p 0) ∧
      (∀ i a, Has xa' (Function.update pre p 0) i a ↔ Has xa pre i a) ∧
      xa'.head = xaMkNode p ∧ xa'.live = insert p xa.live ∧ (xa'.node p).shift = shift ∧
      ∀ x ∈ xa.live, (xa'.node x).shift = (xa.node x).shift := by
  obtain ⟨haddr, hp⟩ := hf
  have hne : ∀ x ∈ xa.live, x ≠ p := fun x hx hxp => hp (hxp ▸ hx)
  obtain ⟨v, m, heq⟩ := pushTop_eq p shift offset calls hinv.track
  dsimp only
  generalize pushTop xa p shift offset calls = xa' at heq
  have hroot : ∀ x, (view xa pre).root = .node x ↔ xaIsNode xa.head ∧ x = xaToNode xa.head :=
    fun x => decode_eq_node
  have hold : ∀ x ∈ xa.live, xa'.node x =
      if xaIsNode xa.head ∧ x = xaToNode xa.head then { xa.node x with offset := 0, parent := p }
      else xa.node x := by
    intro x hx
    rw [heq]
    simp only [if_neg (hne x hx)]
  have hnew : xa'.node p = ⟨shift % 256, 0, 1, v, 0, Function.update (fun _ => 0) 0 xa.head, m⟩ := by
    have hnot : ¬ (xaIsNode xa.head ∧ p = xaToNode xa.head) := fun h =>
      hp (h.2 ▸ (hinv.head h.1).1)
    rw [heq]
    simp only [if_neg hnot, if_true]
  have hlive : xa'.live = insert p xa.live := by rw [heq]
  have hhead : xa'.head = xaMkNode p := by rw [heq]
  have hsh : (xa'.node p).shift = shift := by rw [hnew]; exact Nat.mod_eq_of_lt (by omega)
  have hshifts : ∀ x ∈ xa.live, (xa'.node x).shift = (xa.node x).shift := by
    intro x hx
    rw [hold x hx]
    split_ifs <;> rfl
  have hon : OnTop (view xa pre) (view xa' (Function.update pre p 0)) p shift := by
    refine ⟨?_, hlive, ?_, fun x hx => ?_, fun x hx hr => ?_, fun x hx hr => ?_⟩
    · show decode xa'.head = _
      rw [hhead]
      exact decode_xaMkNode haddr
    · show viewCell _ _ = _
      rw [hnew, Function.update_self]
      ext o
      all_goals simp only [viewCell, Nat.mod_eq_of_lt (show shift < 256 by omega)]
      · simp
      · by_cases ho : o = 0
        · subst ho; simp [view]
        · simp [ho]
    · have hcell : (view xa' (Function.update pre p 0)).cell x =
          viewCell (xa'.node x) (pre x) := by
        rw [← Function.update_of_ne (hne x hx) 0 pre]
        rfl
      rw [hcell, hold x hx]
      by_cases h : xaIsNode xa.head ∧ x = xaToNode xa.head
      · -- the offset of the old top is zero already
        have h0 := (hinv.head h.1).2.2.2
        rw [← h.2] at h0
        rw [if_pos h]
        ext
        all_goals try rfl
        exact h0.symm
      · rw [if_neg h]
        rfl
    · show (viewCell (xa'.node x) _).parent = _
      rw [hold x hx, if_pos ((hroot x).mp hr)]
      simp [viewCell, haddr.ne_zero]
    · show (viewCell (xa'.node x) _).parent = _
      rw [hold x hx, if_neg (fun h => hr ((hroot x).mpr h))]
      rfl
  have hitem : ∀ a, (view xa pre).root = .item a → shift = 0 := fun a ha =>
    ht.item (decode_eq_item.mp ha).2.2
  have hnode : ∀ r, (view xa pre).root = .node r → shift = ((view xa pre).cell r).shift + 6 := by
    intro r hr
    obtain ⟨h1, rfl⟩ := decode_eq_node.mp hr
    exact ht.node h1
  refine ⟨⟨hon.wf hinv.wf hp (decode_used.mpr ht.used) hitem hnode, ?_, ?_, ?_⟩,
    fun i a => hon.holds hp hitem, hhead, hlive, hsh, hshifts⟩
  · intro x hx
    rcases Finset.mem_insert.mp (hlive ▸ hx) with rfl | hx
    · exact haddr
    · exact hinv.addr x hx
  · intro x hx
    rcases Finset.mem_insert.mp (hlive ▸ hx) with rfl | hx
    · rw [hsh]; exact hshift
    · rw [hshifts x hx]; exact hinv.shift x hx
  · rw [heq]
    exact hinv.track

end

/-- The start of the descent: an index in range of the `shift` above the head. -/
structure Head (W : ℕ) (xas : XaState) (shift : ℕ) : Prop where
  dvd : 6 ∣ shift
  lt : shift < W + 6
  fits : xas.index < 2 ^ shift
  node : xaIsNode xas.xa.head → shift = (xas.xa.node (xaToNode xas.xa.head)).shift + 6
  item : ¬ xaIsNode xas.xa.head → xas.node = 0 ∧ (xas.xa.head ≠ 0 → shift = 0)

/-- The outcome of `xas_expand`. -/
def Expanded (W : ℕ) (xas : XaState) (pre : ℕ → ℕ) (r : Option (XaState × Option ℕ)) : Prop :=
  (∃ xas' pre', r = some (xas', none) ∧ Keeps W xas pre xas' pre' ∧ Failed W xas') ∨
  ∃ xas' pre' shift, r = some (xas', some shift) ∧ Keeps W xas pre xas' pre' ∧ Head W xas' shift

theorem expandLoop_spec (hm : Malloc malloc) (hW : W ≤ 64) : ∀ {k : ℕ} (node : ℕ) {shift : ℕ}
    {xas : XaState} {pre : ℕ → ℕ}, Ready W xas pre → xas.index < 2 ^ W → xas.node = 0 → TopShift xas.xa shift →
    6 ∣ shift → shift < W + 6 → (¬ xaIsNode xas.xa.head → node = 0) → W + 6 ≤ shift + k →
    Expanded W xas pre (expandLoop W malloc k xas xas.xa.head node shift)
  | 0, _, _, _, _, _, _, _, _, _, hlt, _, hk => absurd hk (by omega)
  | k + 1, node, shift, xas, pre, hr, hi, h0, ht, hdvd, hlt, hnode, hk => by
    have hmax := maxIndex_lt xas.xa hi xas.xa.head
    rw [expandLoop]
    by_cases hgt : xas.index > maxIndex W xas.xa xas.xa.head
    · rw [if_pos hgt]
      rw [hmax] at hgt
      have hshift : shift < W := by
        by_cases hn : xaIsNode xas.xa.head
        · rw [if_pos hn, ← ht.node hn] at hgt
          exact (Nat.pow_lt_pow_iff_right (by omega)).mp (hgt.trans_lt hi)
        · rw [if_neg hn] at hgt
          have := ht.item hn
          by_contra hW0
          obtain rfl : W = 0 := by omega
          omega
      rcases xasAlloc_spec hm hr (Or.inl h0) shift with ⟨xas', heq, hkeep, hfail⟩ | ⟨p, c, hf, heq⟩
      · left
        rw [heq]
        exact ⟨xas', pre, if_pos rfl, hkeep, hfail⟩
      · rw [heq]
        dsimp only
        rw [if_neg hf.1.ne_zero, h0]
        obtain ⟨hinv, hhas, hhead, hlive, hsh, hshifts⟩ := pushTop_inv hr.inv hW hf ht hshift
          xas.offset c
        have hisn : xaIsNode (pushTop xas.xa p shift xas.offset c).head :=
          hhead ▸ xaIsNode_xaMkNode hf.1
        have hkeep : Keeps W xas pre
            { xas with xa := pushTop xas.xa p shift xas.offset c, node := 0, alloc := 0 }
            (Function.update pre p 0) :=
          Keeps.of_push hinv hhas rfl rfl (card_path_grow hf.2 hlive hshifts (Or.inl rfl))
        have ht' : TopShift (pushTop xas.xa p shift xas.offset c) (shift + 6) := by
          refine ⟨fun h => ?_, fun h => absurd hisn h, fun _ => ?_⟩
          · rw [h] at hisn
            exact not_xaIsNode_zero hisn
          · rw [hhead, xaToNode_xaMkNode hf.1, hsh]
        have hrec := expandLoop_spec hm hW (k := k) p hkeep.ready hi
          rfl ht' (dvd_add hdvd dvd_rfl) (by omega) (fun h => absurd hisn h) (by omega)
        dsimp only at hrec
        rw [hhead] at hrec
        rcases hrec with ⟨xas', pre', h1, h2, h3⟩ | ⟨xas', pre', s, h1, h2, h3⟩
        · exact Or.inl ⟨xas', pre', h1, hkeep.trans h2, h3⟩
        · exact Or.inr ⟨xas', pre', s, h1, hkeep.trans h2, h3⟩
    · rw [if_neg hgt]
      rw [hmax] at hgt
      right
      refine ⟨_, pre, shift, rfl, Keeps.of_eq hr rfl rfl rfl, hdvd, hlt, ?_, ht.node,
        fun hn => ⟨hnode hn, fun _ => ht.item hn⟩⟩
      show xas.index < 2 ^ shift
      by_cases hn : xaIsNode xas.xa.head
      · rw [if_pos hn, ← ht.node hn] at hgt
        omega
      · rw [if_neg hn] at hgt
        have : 0 < 2 ^ shift := by positivity
        omega

theorem expandShift_spec {max : ℕ} (hi : max < 2 ^ W) : ∀ {k m : ℕ}, m < W → W ≤ m + k →
    ∃ r j, expandShift max k m = some r ∧ r = m + 6 * j ∧ r < W ∧ max < 2 ^ (r + 6)
  | 0, m, hm, hk => absurd hk (by omega)
  | k + 1, m, hm, hk => by
    have hdiv : max / 2 ^ m ≥ XA_CHUNK_SIZE ↔ 2 ^ (m + 6) ≤ max := by
      rw [ge_iff_le, Nat.le_div_iff_mul_le (by positivity), XA_CHUNK_SIZE, pow_add, mul_comm]
      rfl
    rw [expandShift]
    by_cases hge : max / 2 ^ m ≥ XA_CHUNK_SIZE
    · have hlt : m + 6 < W := (Nat.pow_lt_pow_iff_right (by omega)).mp ((hdiv.mp hge).trans_lt hi)
      rw [if_pos hge]
      obtain ⟨r, j, hr, hrj, hrW, hri⟩ := expandShift_spec hi (k := k) (m := m + 6) hlt (by omega)
      exact ⟨r, j + 1, hr, by omega, hrW, hri⟩
    · rw [if_neg hge]
      exact ⟨m, 0, rfl, rfl, hm, by rw [hdiv] at hge; omega⟩

/-- **`xas_expand`** brings the index in range, or fails; the content stays. -/
theorem xasExpand_spec (hm : Malloc malloc) (hW : W ≤ 64) (hr : Ready W xas pre)
    (hi : xas.index < 2 ^ W) (h0 : xas.node = 0) {fuel : ℕ} (hf : W + 6 ≤ fuel) :
    Expanded W xas pre (xasExpand W malloc fuel xas xas.xa.head) := by
  unfold xasExpand
  by_cases hz : xas.xa.head = 0
  · rw [if_pos hz]
    right
    have hnot : ¬ xaIsNode xas.xa.head := hz ▸ not_xaIsNode_zero
    by_cases hi0 : xas.index = 0
    · rw [if_pos hi0]
      exact ⟨xas, pre, 0, rfl, Keeps.of_eq hr rfl rfl rfl, dvd_zero 6, by omega, by simp [hi0],
        fun h => absurd h hnot, fun _ => ⟨h0, fun _ => rfl⟩⟩
    · have hpos : 0 < W := by
        by_contra hW0
        obtain rfl : W = 0 := by omega
        omega
      obtain ⟨r, j, hr', hrj, hrW, hri⟩ := expandShift_spec hi (k := fuel) hpos (by omega)
      rw [if_neg hi0, hr']
      exact ⟨xas, pre, r + 6, rfl, Keeps.of_eq hr rfl rfl rfl, by omega, by omega, hri,
        fun h => absurd h hnot, fun _ => ⟨h0, fun h => absurd hz h⟩⟩
  · rw [if_neg hz]
    have hxas : ({ xas with node := 0 } : XaState) = xas := by rw [← h0]
    dsimp only
    rw [hxas]
    by_cases hn : xaIsNode xas.xa.head
    · rw [if_pos hn]
      have hl := (hr.inv.head hn).1
      have hs := hr.inv.shift _ hl
      refine expandLoop_spec hm hW _ hr hi h0 ⟨hz, fun h => absurd hn h, fun _ => rfl⟩ ?_ ?_
        (fun h => absurd hn h) (by omega)
      · exact dvd_add (hr.inv.wf.dvd _ hl) dvd_rfl
      · simp only [XA_CHUNK_SHIFT]; omega
    · rw [if_neg hn]
      exact expandLoop_spec hm hW _ hr hi h0 ⟨hz, fun _ => rfl, fun h => absurd h hn⟩ (dvd_zero 6)
        (by omega) (fun _ => rfl) (by omega)

/-! ### `xas_create` -/

/-- The array with a new node in a slot, `none` for the head. -/
def pushSlot (xa : Xarray) (p shift calls : ℕ) : Option (ℕ × ℕ) → Xarray
  | none => { attach xa p 0 shift 0 calls with head := xaMkNode p }
  | some (n, o) => (attach xa p n shift o calls).setSlot (some (n, o)) (xaMkNode p)

section

variable {p n o shift : ℕ}

theorem pushSlot_child_node (xa : Xarray) (o shift calls x : ℕ) (hn : n ≠ 0) (hnp : n ≠ p) :
    (pushSlot xa p shift calls (some (n, o))).node x =
      if x = p then ⟨shift % 256, o % 256, 0, 0, n, fun _ => 0, fun _ _ => false⟩
      else if x = n then { xa.node n with
        slots := Function.update (xa.node n).slots o (xaMkNode p)
        count := addChar (xa.node n).count 1 }
      else xa.node x := by
  unfold pushSlot Xarray.setSlot Xarray.setNode attach
  by_cases hx : x = n
  · subst hx
    simp [hn, hnp]
  · by_cases hxp : x = p
    · subst hxp
      simp [hx, hn]
    · simp [hx, hxp]

/-- **A new node below an empty slot** keeps the invariant and the content. -/
theorem pushSlot_child_inv (hinv : Inv W xa pre) (hW : W ≤ 64) (hf : Fresh xa.live p)
    (hn : n ∈ xa.live) (ho : o < 64) (hs : (xa.node n).shift = shift + 6)
    (he : (xa.node n).slots o = 0) (calls : ℕ) :
    let xa' := pushSlot xa p shift calls (some (n, o))
    let pre' := Function.update pre p (pre n * 64 + o)
    Inv W xa' pre' ∧ (∀ i a, Has xa' pre' i a ↔ Has xa pre i a) ∧ xa'.live = insert p xa.live ∧
      xa'.node p = ⟨shift, o, 0, 0, n, fun _ => 0, fun _ _ => false⟩ ∧
      ∀ x ∈ xa.live, (xa'.node x).shift = (xa.node x).shift := by
  obtain ⟨haddr, hp⟩ := hf
  have hnp : n ≠ p := fun h => hp (h ▸ hn)
  have hn0 := (hinv.addr n hn).ne_zero
  have hsW := hinv.shift n hn
  have hnode := fun x => pushSlot_child_node xa o shift calls x hn0 hnp
  have hnew : (pushSlot xa p shift calls (some (n, o))).node p =
      ⟨shift, o, 0, 0, n, fun _ => 0, fun _ _ => false⟩ := by
    rw [hnode, if_pos rfl, Nat.mod_eq_of_lt (by omega), Nat.mod_eq_of_lt (by omega)]
  have hshifts : ∀ x ∈ xa.live,
      ((pushSlot xa p shift calls (some (n, o))).node x).shift = (xa.node x).shift := by
    intro x hx
    rw [hnode, if_neg (ne_of_mem_of_not_mem hx hp)]
    split_ifs with hxn
    · rw [hxn]
    · rfl
  have hview : view (pushSlot xa p shift calls (some (n, o)))
      (Function.update pre p (pre n * 64 + o)) =
      ((view xa pre).alloc p shift o (some n) (pre n * 64 + o)).setSlot n o (.node p)
        ((xa.node n).count + 1) := by
    have hcount := hinv.count_le hn
    ext x : 2
    · rfl
    · rfl
    · rw [Store.cell_setSlot, Store.cell_alloc, Store.cell_alloc]
      show viewCell ((pushSlot xa p shift calls (some (n, o))).node x) _ = _
      by_cases hxn : x = n
      · subst hxn
        rw [if_pos rfl, if_neg hnp, hnode, if_neg hnp, if_pos rfl, Function.update_of_ne hnp,
          addChar_one (by omega)]
        ext y
        all_goals try rfl
        simp only [viewCell, Cell.put, view, Function.update_apply]
        split_ifs
        · exact decode_xaMkNode haddr
        · rfl
      · by_cases hxp : x = p
        · subst hxp
          rw [if_neg hxn, if_pos rfl, hnew, Function.update_self]
          ext y
          all_goals simp only [viewCell, if_neg hn0]
          simp
        · rw [if_neg hxn, if_neg hxp, hnode, if_neg hxp, if_neg hxn, Function.update_of_ne hxp]
          rfl
  have hslot : ((view xa pre).cell n).slot o = .empty := decode_eq_empty.mpr he
  refine ⟨⟨?_, ?_, ?_, hinv.track⟩, fun i a => ?_, rfl, hnew, hshifts⟩
  · rw [hview]
    exact hinv.wf.addChild hn hp ho hslot hs
  · intro x hx
    rcases Finset.mem_insert.mp hx with rfl | hx
    · exact haddr
    · exact hinv.addr x hx
  · intro x hx
    rcases Finset.mem_insert.mp hx with rfl | hx
    · rw [hnew]
      show shift < W
      omega
    · rw [hshifts x hx]
      exact hinv.shift x hx
  · unfold Has
    rw [hview]
    exact Wf.holds_addChild hn hp hslot

/-- The same at the head of an empty array. -/
theorem pushSlot_head_inv (hinv : Inv W xa pre) (hW : W ≤ 64) (hf : Fresh xa.live p)
    (hr : xa.head = 0) (hdvd : 6 ∣ shift) (hshift : shift < W) (calls : ℕ) :
    let xa' := pushSlot xa p shift calls none
    let pre' := Function.update pre p 0
    Inv W xa' pre' ∧ (∀ i a, Has xa' pre' i a ↔ Has xa pre i a) ∧ xa'.live = insert p xa.live ∧
      xa'.node p = ⟨shift, 0, 0, 0, 0, fun _ => 0, fun _ _ => false⟩ ∧
      ∀ x ∈ xa.live, (xa'.node x).shift = (xa.node x).shift := by
  obtain ⟨haddr, hp⟩ := hf
  have hnode : ∀ x, (pushSlot xa p shift calls none).node x =
      if x = p then ⟨shift, 0, 0, 0, 0, fun _ => 0, fun _ _ => false⟩ else xa.node x := by
    intro x
    unfold pushSlot attach
    simp [Nat.mod_eq_of_lt (show shift < 256 by omega)]
  have hnew := hnode p
  rw [if_pos rfl] at hnew
  have hshifts : ∀ x ∈ xa.live,
      ((pushSlot xa p shift calls none).node x).shift = (xa.node x).shift := by
    intro x hx
    rw [hnode, if_neg (ne_of_mem_of_not_mem hx hp)]
  have hview : view (pushSlot xa p shift calls none) (Function.update pre p 0) =
      ((view xa pre).alloc p shift 0 none 0).setRoot (.node p) := by
    ext x : 2
    · exact decode_xaMkNode haddr
    · rfl
    · rw [Store.cell_setRoot, Store.cell_alloc]
      show viewCell ((pushSlot xa p shift calls none).node x) _ = _
      rw [hnode]
      by_cases hx : x = p
      · subst hx
        rw [if_pos rfl, if_pos rfl, Function.update_self]
        rfl
      · rw [if_neg hx, if_neg hx, Function.update_of_ne hx]
        rfl
  have hroot : (view xa pre).root = .empty := decode_eq_empty.mpr hr
  obtain ⟨hwf, hhas⟩ := hinv.wf.addRoot (n := p) (s := shift) (by omega) hroot hdvd
  refine ⟨⟨hview ▸ hwf, ?_, ?_, hinv.track⟩, fun i a => ?_, rfl, hnew, hshifts⟩
  · intro x hx
    rcases Finset.mem_insert.mp hx with rfl | hx
    · exact haddr
    · exact hinv.addr x hx
  · intro x hx
    rcases Finset.mem_insert.mp hx with rfl | hx
    · rw [hnew]
      exact hshift
    · rw [hshifts x hx]
      exact hinv.shift x hx
  · unfold Has
    rw [hview]
    exact hhas i a

end

/-- Where `xas_create` can end: without memory, at the head of an array without nodes, or at the slot
of the index in a leaf. -/
inductive Created (W : ℕ) (xas : XaState) (pre : ℕ → ℕ) : ℕ → Prop
  | failed (h : Failed W xas) : Created W xas pre 0
  | head (h0 : xas.node = 0) (hr : ¬ xaIsNode xas.xa.head) (hi : xas.index = 0) :
      Created W xas pre xas.xa.head
  | leaf (h : SlotOf xas.xa pre xas.index xas.node xas.offset)
      (hs : (xas.xa.node xas.node).shift = 0) :
      Created W xas pre ((xas.xa.node xas.node).slots xas.offset)

/-- The outcome of the descent. -/
def Creates (W : ℕ) (xas : XaState) (pre : ℕ → ℕ) (r : Option (XaState × ℕ)) : Prop :=
  ∃ xas' pre' e, r = some (xas', e) ∧ Keeps W xas pre xas' pre' ∧ Created W xas' pre' e

theorem Creates.of_keeps {r : Option (XaState × ℕ)} (h : Keeps W xas pre xas' pre')
    (hc : Creates W xas' pre' r) : Creates W xas pre r := by
  obtain ⟨xas'', pre'', e, heq, hkeep, hcr⟩ := hc
  exact ⟨xas'', pre'', e, heq, h.trans hkeep, hcr⟩

theorem createLoop_spec (hm : Malloc malloc) (hW : W ≤ 64) : ∀ {k : ℕ} {xas : XaState}
    {pre : ℕ → ℕ}, Ready W xas pre → SlotOf xas.xa pre xas.index xas.node xas.offset →
    (xas.xa.node xas.node).shift < k → Creates W xas pre (createLoop W malloc k xas
      (xas.xa.node xas.node).shift ((xas.xa.node xas.node).slots xas.offset)
      (some (xas.node, xas.offset)))
  | 0, _, _, _, _, hk => absurd hk (by omega)
  | k + 1, xas, pre, hr, h, hk => by
    rw [createLoop]
    dsimp only
    by_cases hs0 : (xas.xa.node xas.node).shift = 0
    · rw [if_neg (by omega)]
      exact ⟨xas, pre, _, rfl, Keeps.of_eq hr rfl rfl rfl, .leaf h hs0⟩
    · rw [if_pos (by omega)]
      have hdvd : 6 ∣ (xas.xa.node xas.node).shift := hr.inv.wf.dvd _ h.live
      have hs : (xas.xa.node xas.node).shift = ((xas.xa.node xas.node).shift - 6) + 6 := by omega
      by_cases hc : (xas.xa.node xas.node).slots xas.offset = 0
      · rw [if_pos hc]
        rcases xasAlloc_spec hm hr (Or.inr h.live) ((xas.xa.node xas.node).shift - XA_CHUNK_SHIFT)
          with ⟨xas', heq, hkeep, hfail⟩ | ⟨p, c, hf, heq⟩
        · rw [heq, hc]
          exact ⟨xas', pre, 0, if_pos rfl, hkeep, .failed hfail⟩
        · rw [heq]
          dsimp only
          rw [if_neg hf.1.ne_zero, if_neg (by exact hr.inv.track)]
          obtain ⟨hinv, hhas, hlive, hnew, hshifts⟩ := pushSlot_child_inv hr.inv hW hf h.live
            h.offset_lt hs hc c
          have hdig : pre xas.node * 64 + xas.offset =
              xas.index / 2 ^ ((xas.xa.node xas.node).shift - 6 + 6) := by
            rw [← hs, h.digits, h.offset, pow_add, ← Nat.div_div_eq_div_mul]
            exact Nat.div_add_mod' _ _
          -- the descent goes on at the new node
          generalize hxa : pushSlot xas.xa p ((xas.xa.node xas.node).shift - 6) c
            (some (xas.node, xas.offset)) = xa' at hinv hhas hlive hnew hshifts
          have hsh : (xa'.node p).shift = (xas.xa.node xas.node).shift - 6 := by rw [hnew]
          have hkeep : Keeps W xas pre ⟨xa', xas.index, getOffset xa' xas.index p, p, 0⟩
              (Function.update pre p (pre xas.node * 64 + xas.offset)) :=
            Keeps.of_push hinv hhas rfl rfl (card_path_grow hf.2 hlive hshifts
              (Or.inr (by rw [hsh]; exact hdig)))
          have hslot : SlotOf xa' (Function.update pre p (pre xas.node * 64 + xas.offset)) xas.index p
              (getOffset xa' xas.index p) := by
            refine ⟨hlive ▸ Finset.mem_insert_self _ _, ?_, rfl⟩
            rw [Function.update_self, hsh, hdig]
          have hrec := createLoop_spec hm hW (k := k) hkeep.ready hslot
            (by show (xa'.node p).shift < k; omega)
          dsimp only at hrec
          rw [hsh, ← hxa] at hrec
          rw [← hxa] at hkeep
          exact hrec.of_keeps hkeep
      · -- a slot of an inner node holds no item
        have hint : xaIsNode ((xas.xa.node xas.node).slots xas.offset) := by
          by_contra hint
          have hitem : ((view xas.xa pre).cell xas.node).slot xas.offset =
              .item ((xas.xa.node xas.node).slots xas.offset) := decode_item hc hint
          exact hs0 (hr.inv.wf.leaf _ h.live _ h.offset_lt _ hitem)
        rw [if_neg hc, if_pos hint]
        obtain ⟨hdown, hs'⟩ := h.down hr.inv hint
        have hkeep : Keeps W xas pre ⟨xas.xa, xas.index,
            getOffset xas.xa xas.index (xaToNode ((xas.xa.node xas.node).slots xas.offset)),
            xaToNode ((xas.xa.node xas.node).slots xas.offset), xas.alloc⟩ pre :=
          Keeps.of_eq hr rfl rfl rfl
        have hrec := createLoop_spec hm hW (k := k) hkeep.ready hdown
          (by show (xas.xa.node (xaToNode ((xas.xa.node xas.node).slots xas.offset))).shift < k
              omega)
        dsimp only at hrec
        rw [hs', XA_CHUNK_SHIFT, Nat.add_sub_cancel]
        exact hrec.of_keeps hkeep

/-- The descent from the head. -/
theorem createLoop_head (hm : Malloc malloc) (hW : W ≤ 64) (hr : Ready W xas pre) {shift k : ℕ}
    (h : Head W xas shift) (hk : W < k) :
    Creates W xas pre (createLoop W malloc (k + 1) xas shift xas.xa.head none) := by
  have hdvd := h.dvd
  have hlt := h.lt
  rw [createLoop]
  dsimp only
  by_cases hs0 : shift = 0
  · rw [if_neg (by omega)]
    have hn : ¬ xaIsNode xas.xa.head := by
      intro hn
      have := h.node hn
      omega
    have hfits := h.fits
    rw [hs0] at hfits
    exact ⟨xas, pre, _, rfl, Keeps.of_eq hr rfl rfl rfl, .head (h.item hn).1 hn (by omega)⟩
  · rw [if_pos (by omega)]
    by_cases hz : xas.xa.head = 0
    · rw [if_pos hz]
      have h0 := (h.item (hz ▸ not_xaIsNode_zero)).1
      rcases xasAlloc_spec hm hr (Or.inl h0) (shift - XA_CHUNK_SHIFT)
        with ⟨xas', heq, hkeep, hfail⟩ | ⟨p, c, hf, heq⟩
      · rw [heq, hz]
        exact ⟨xas', pre, 0, if_pos rfl, hkeep, .failed hfail⟩
      · rw [heq]
        dsimp only
        rw [if_neg hf.1.ne_zero, if_neg (by exact hr.inv.track), h0]
        obtain ⟨hinv, hhas, hlive, hnew, hshifts⟩ := pushSlot_head_inv hr.inv hW hf hz
          (show 6 ∣ shift - 6 by omega) (by omega) c
        generalize hxa : pushSlot xas.xa p (shift - 6) c none = xa' at hinv hhas hlive hnew hshifts
        have hsh : (xa'.node p).shift = shift - 6 := by rw [hnew]
        have hkeep : Keeps W xas pre ⟨xa', xas.index, getOffset xa' xas.index p, p, 0⟩
            (Function.update pre p 0) :=
          Keeps.of_push hinv hhas rfl rfl (card_path_grow hf.2 hlive hshifts (Or.inl rfl))
        have hslot : SlotOf xa' (Function.update pre p 0) xas.index p (getOffset xa' xas.index p) := by
          refine ⟨hlive ▸ Finset.mem_insert_self _ _, ?_, rfl⟩
          rw [Function.update_self, hsh, Nat.sub_add_cancel (by omega), Nat.div_eq_of_lt h.fits]
        have hrec := createLoop_spec hm hW (k := k) hkeep.ready hslot
          (by show (xa'.node p).shift < k; omega)
        dsimp only at hrec
        rw [hsh, ← hxa] at hrec
        rw [← hxa] at hkeep
        exact hrec.of_keeps hkeep
    · have hn : xaIsNode xas.xa.head := by
        by_contra hn
        exact hs0 ((h.item hn).2 hz)
      rw [if_neg hz, if_pos hn]
      have hs := h.node hn
      have hslot := slotOf_head hr.inv hn (i := xas.index) (hs ▸ h.fits)
      have hkeep : Keeps W xas pre ⟨xas.xa, xas.index,
          getOffset xas.xa xas.index (xaToNode xas.xa.head), xaToNode xas.xa.head, xas.alloc⟩ pre :=
        Keeps.of_eq hr rfl rfl rfl
      have hrec := createLoop_spec hm hW (k := k) hkeep.ready hslot
        (by show (xas.xa.node (xaToNode xas.xa.head)).shift < k; omega)
      dsimp only at hrec
      rw [hs, XA_CHUNK_SHIFT, Nat.add_sub_cancel]
      exact hrec.of_keeps hkeep

/-- **`xas_create`**, from the start of a walk, ends at the slot of the index with the content as
before, or without memory. -/
theorem xasCreate_spec (hm : Malloc malloc) (hW : W ≤ 64) (hr : Ready W xas pre)
    (hi : xas.index < 2 ^ W) (hn : xas.node = XAS_RESTART) {fuel : ℕ} (hf : W + 6 ≤ fuel) :
    Creates W xas pre (xasCreate W malloc fuel xas true) := by
  obtain ⟨k, rfl⟩ : ∃ k, fuel = k + 1 := ⟨fuel - 1, by omega⟩
  have hkeep : Keeps W xas pre { xas with node := 0 } pre := Keeps.of_eq hr rfl rfl rfl
  unfold xasCreate
  rw [if_pos (by unfold xasTop; omega)]
  simp only [Option.bind_eq_bind, not_true_eq_false, and_false, if_false]
  rcases xasExpand_spec hm hW hkeep.ready hi rfl hf with
    ⟨xas', pre', heq, hkeep', hfail⟩ | ⟨xas', pre', shift, heq, hkeep', hhead⟩
  · dsimp only at heq
    rw [heq]
    exact ⟨xas', pre', 0, rfl, hkeep.trans hkeep', .failed hfail⟩
  · dsimp only at heq
    rw [heq]
    exact (createLoop_head hm hW hkeep'.ready hhead (by omega)).of_keeps (hkeep.trans hkeep')

end HardStack.XArray.Create
