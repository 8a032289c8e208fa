import HardStack.Rbtree.EraseColor

/-! # Erasing a node

`__rb_erase_augmented` takes the node out and says where the tree is one black node short. A node
with at most one child gives its place to the child. A node with two children gives it to its
successor, the leftmost node `m` of the right subtree: that subtree is a context `Z` of left steps
around `m`, and `m`, which has no left child, leaves its own place to its right child. -/

namespace HardStack.Rbtree.Erase

open HardStack.Lib.RbTree HardStack.Rbtree.Model HardStack.Rbtree.Layout
open HardStack.Rbtree.EraseColor HardStack.Rbtree.Callbacks

variable {α : Type} {s : State α} {K : Ctx ℕ} (cb : AugmentCallbacks α) {d : Dir} {c : Color}
  {J : α → CTree ℕ → Prop}

/-! ### At most one child -/

theorem replace_at {X : CTree ℕ} {n : ℕ} (h : At s K (.mk d c .nil n X)) (hne : X ≠ .nil) :
    At ((s.setPc (ptr X) (s.parentColor n)).rbChangeChild n (ptr X) (top K)) K (X.paint c) := by
  obtain ⟨hn, hnpc, -, -, -, hX⟩ := rep_mk.mp h.tree
  have hnd := h.nodup
  simp only [Ctx.nodup_around, CTree.inorder_mk, nodup_ord, mem_ord, List.Disjoint] at hnd
  have hXm := ptr_mem (ptr_ne_zero hX hne)
  refine h.relink ptr_mk ptr_paint hn.1 ?_ rfl ?_ (rep_root (s := s) hX ?_ ?_ ?_ ?_)
  · cases d <;> simp [ord]
  all_goals grind [Same]

theorem remove_at {n : ℕ} (h : At s K (.mk d c .nil n .nil)) :
    At (s.rbChangeChild n 0 (top K)) K .nil := by
  obtain ⟨hn, -, -, -, -, -⟩ := rep_mk.mp h.tree
  exact h.relink ptr_mk ptr_nil hn.1 (by simp) rfl (fun _ _ => ⟨rfl, fun _ => rfl⟩) rep_nil

/-- **What `__rb_erase_augmented` leaves**: the tree over the nodes `L`, either red-black already or
with an empty subtree below `rebalance` that is one black node short. -/
inductive Erased (J : α → CTree ℕ → Prop) (L : List ℕ) : State α × ℕ → Prop
  | done {s : State α} {t : CTree ℕ} (mem : TreeOf s t) (redBlack : t.RedBlack)
      (inorder : t.inorder = L) (data : J s.aug t) : Erased J L (s, 0)
  | short {s : State α} {f : Frame ℕ} {K : Ctx ℕ} (mem : At s (f :: K) .nil)
      (height : Ctx.Height (f :: K) 1) (accepts : Ctx.Accepts (f :: K) .black)
      (inorder : Ctx.around (f :: K) [] = L) (data : J s.aug (Ctx.fill (f :: K) .nil)) :
      Erased J L (s, f.ptr)

/-- A node with one child: the child is red and the node is black. -/
theorem one_child {X : CTree ℕ} {n k : ℕ} (hne : X ≠ .nil) (hr : (CTree.mk d c .nil n X).NoRedRed)
    (hh : (CTree.mk d c .nil n X).Height k) :
    c = .black ∧ (X.paint .black).NoRedRed ∧ (X.paint .black).Height k ∧
      (X.paint .black).color = .black := by
  obtain ⟨hc, -, hXr⟩ := CTree.noRedRed_mk.mp hr
  obtain ⟨m, rfl, hm, hXh⟩ := CTree.height_mk.mp hh
  obtain rfl : m = 0 := hm
  obtain ⟨cx, a, x, b, rfl⟩ := CTree.exists_mk .left hne
  obtain ⟨m, hm, ha, hb⟩ := CTree.height_mk.mp hXh
  cases cx with
  | black => simp [Color.weight] at hm
  | red =>
    obtain rfl : 0 = m := hm
    have hblack : c = .black := by
      cases c with
      | black => rfl
      | red => cases (hc rfl).2
    subst hblack
    obtain ⟨-, har, hbr⟩ := CTree.noRedRed_mk.mp hXr
    rw [CTree.mk_paint]
    exact ⟨rfl, by simp [har, hbr], CTree.height_mk.mpr ⟨0, rfl, ha, hb⟩, CTree.color_mk⟩

/-- The node in the hole has at most one child; it is taken out of a red-black tree. -/
theorem erased_replace {X : CTree ℕ} {n : ℕ} (hat : At s K (X.paint c)) (hne : X ≠ .nil)
    (hrb : (K.fill (.mk d c .nil n X)).RedBlack) (hJ : J s.aug (K.fill (X.paint c))) :
    Erased J (K.around X.inorder) (s, 0) := by
  obtain ⟨hr, ⟨k, hh, hK⟩, hacc⟩ := Ctx.redBlack_unfill hrb
  obtain ⟨rfl, hXr, hXh, hXc⟩ := one_child hne hr hh
  refine Erased.done (at_iff.mp hat) (Ctx.redBlack_fill hXr hXh hK ?_) ?_ hJ
  · rw [hXc]
    rwa [CTree.color_mk] at hacc
  · rw [Ctx.inorder_fill, CTree.inorder_paint]

/-- A leaf that is taken out: where it was black, the place it leaves is short. -/
theorem erased_remove (hat : At s K .nil) (hK : K.Height c.weight) (hacc : K.Accepts c)
    (hJ : J s.aug (K.fill .nil)) :
    Erased J (K.around []) (s, if c = .black then top K else 0) := by
  cases c with
  | red =>
    rw [if_neg (by simp)]
    exact Erased.done (at_iff.mp hat) (Ctx.redBlack_fill trivial rfl hK hacc.black)
      (Ctx.inorder_fill K .nil) hJ
  | black =>
    rw [if_pos rfl]
    cases K with
    | nil => exact Erased.done (at_iff.mp hat) ⟨rfl, trivial, 0, rfl⟩ rfl hJ
    | cons f K => exact Erased.short hat hK hacc rfl hJ

/-! ### The successor -/

/-- The search from a nonempty left subtree `t` of `parent` ends at the leftmost node of `t`. -/
theorem findSuccessor_left {par : ℕ} : ∀ (t : CTree ℕ) (parent n : ℕ), Rep s par t → t ≠ .nil →
    t.inorder.length ≤ n → ∃ (Z : Ctx ℕ) (cs : Color) (m : ℕ) (C : CTree ℕ),
      t = Z.fill (.node cs .nil m C) ∧ (∀ f ∈ Z, f.dir = .left) ∧
      findSuccessor s n parent (ptr t) = some (if Z = [] then parent else top Z, m) := by
  intro t
  induction t generalizing par with
  | nil => intro _ _ _ h _; exact absurd rfl h
  | node c a p b iha _ =>
    intro parent n hrep _ hn
    obtain ⟨hp, -, hlc, -, ha, -⟩ := hrep
    have hlen : (CTree.node c a p b).inorder.length = a.inorder.length + (b.inorder.length + 1) := by
      show (a.inorder ++ p :: b.inorder).length = _
      simp
    obtain ⟨n, rfl⟩ : ∃ k, n = k + 1 := ⟨n - 1, by omega⟩
    show ∃ Z cs m C, _ ∧ _ ∧ findSuccessor s (n + 1) parent p = _
    rw [findSuccessor, hlc]
    by_cases hne : a = .nil
    · subst hne
      exact ⟨[], c, p, b, rfl, by simp, rfl⟩
    · obtain ⟨Z, cs, m, C, rfl, hZ, hf⟩ := iha p n ha hne (by omega)
      simp only [if_pos (ptr_ne_zero ha hne)]
      refine ⟨Z ++ [⟨.left, c, p, b⟩], cs, m, C, ?_, ?_, ?_⟩
      · rw [Ctx.fill_append]; rfl
      · intro f hf'
        rcases List.mem_append.mp hf' with h | h
        · exact hZ f h
        · rw [List.mem_singleton.mp h]
      · cases Z with
        | nil => simpa using hf
        | cons z Z => simpa using hf

/-- The search below a right subtree with a left child. -/
theorem findSuccessor_spec {par n : ℕ} {t : CTree ℕ} (h : Rep s par t) (hn : t.inorder.length ≤ n)
    (hl : s.child .left (ptr t) ≠ 0) (hne : t ≠ .nil) :
    ∃ (z : Frame ℕ) (Z : Ctx ℕ) (cs : Color) (m : ℕ) (C : CTree ℕ),
      t = Ctx.fill (z :: Z) (.node cs .nil m C) ∧ (∀ f ∈ z :: Z, f.dir = .left) ∧
      findSuccessor s n (ptr t) (s.child .left (ptr t)) = some (z.ptr, m) := by
  cases t with
  | nil => exact absurd rfl hne
  | node c a p b =>
    obtain ⟨-, -, hlc, -, ha, -⟩ := h
    have hlen : (CTree.node c a p b).inorder.length = a.inorder.length + (b.inorder.length + 1) := by
      show (a.inorder ++ p :: b.inorder).length = _
      simp
    simp only [ptr] at hl ⊢
    rw [hlc] at hl ⊢
    have hane : a ≠ .nil := by rintro rfl; exact hl rfl
    obtain ⟨Z, cs, m, C, rfl, hZ, hf⟩ := findSuccessor_left a p n ha hane (by omega)
    cases Z with
    | nil => exact ⟨⟨.left, c, p, b⟩, [], cs, m, C, rfl, by simp, hf⟩
    | cons z Z =>
      refine ⟨z, Z ++ [⟨.left, c, p, b⟩], cs, m, C, ?_, ?_, hf⟩
      · rw [← List.cons_append, Ctx.fill_append]; rfl
      · intro f hf'
        rw [← List.cons_append] at hf'
        rcases List.mem_append.mp hf' with h | h
        · exact hZ f h
        · rw [List.mem_singleton.mp h]

/-! ### Splicing the successor in -/

/-- The memory before the parent's child field changes in `eraseSplice`. -/
def spliced (s : State α) (n l m C parent : ℕ) : State α :=
  (((s.setChild .left m l).rbSetParent l m).setPc m (s.parentColor n)).adoptBlack C parent

@[grind =] theorem parentColor_spliced (n l m C parent x : ℕ) :
    (spliced s n l m C parent).parentColor x = if C ≠ 0 ∧ x = C then parent ||| RB_BLACK
      else if x = m then s.parentColor n else if x = l then s.parentColor l % 2 ||| m
      else s.parentColor x := by
  unfold spliced
  simp

@[grind =] theorem child_spliced (n l m C parent : ℕ) (d : Dir) (x : ℕ) :
    (spliced s n l m C parent).child d x = if d = .left ∧ x = m then l else s.child d x := by
  unfold spliced
  simp

@[simp] theorem root_spliced (n l m C parent : ℕ) : (spliced s n l m C parent).root = s.root := by
  unfold spliced
  simp

@[simp] theorem aug_spliced (n l m C parent : ℕ) : (spliced s n l m C parent).aug = s.aug := by
  unfold spliced State.rbSetParent
  simp

theorem eraseSplice_eq {n l m : ℕ} (parent C : ℕ) (hl : s.child .left n = l) (hn : n ≠ l) (hm : m ≠ l) :
    eraseSplice cb s n parent m C =
      (((spliced s n l m C parent).rbChangeChild n m (pcParent (s.parentColor n))).augment
        (cb.propagate
          ((spliced s n l m C parent).rbChangeChild n m (pcParent (s.parentColor n))) m 0),
        if C ≠ 0 then 0 else if pcIsBlack (s.parentColor m) then parent else 0) := by
  unfold eraseSplice spliced
  simp only [hl, parentColor_rbSetParent, parentColor_setChild, if_neg hn, parentColor_changeChild,
    if_neg hm, State.adoptBlack, State.rbSetParentColor, changeChild_setPc]
  by_cases hC : C = 0
  · subst hC
    simp
  · simp [hC]

theorem splice_nil_at {l C : CTree ℕ} {n m : ℕ} {cs : Color}
    (h : At s K (.mk .left c l n (.mk .left cs .nil m C))) (hl : l ≠ .nil) :
    At ((spliced s n (ptr l) m (ptr C) m).rbChangeChild n m (top K)) K
      (.mk .left c l m (C.paint .black)) := by
  obtain ⟨hn, hnpc, hnl, hnr, hl', ht⟩ := rep_mk.mp h.tree
  obtain ⟨hm, hmpc, hml, hmr, -, hC⟩ := rep_mk.mp ht
  have hnd := h.nodup
  simp only [Ctx.nodup_around, CTree.inorder_mk, nodup_ord, mem_ord, not_or, List.Disjoint] at hnd
  have hlm := ptr_mem (ptr_ne_zero hl' hl)
  have hCm := ptr_mem (t := C)
  have hlpc := rep_reparent_word hl' hn.2 m (ptr_ne_zero hl' hl)
  have hC0 := ptr_ne_zero hC
  refine h.relink ptr_mk ptr_mk hn.1 ?_ (by simp) (by grind [Same]) (rep_mk.mpr ⟨hm, ?_, ?_, ?_,
    rep_reparent (s := s) hl' ?_ ?_ ?_ ?_, rep_root (s := s) hC ?_ ?_ ?_ ?_⟩)
  · simp [ord]
  all_goals grind [Same, bit, Dir.flip]

/-- The root of a context with a step in it is a node of the context. -/
theorem ptr_fill : ∀ {Z : Ctx ℕ} {z : Frame ℕ} (t t' : CTree ℕ),
    ptr (Ctx.fill (z :: Z) t) = ptr (Ctx.fill (z :: Z) t') ∧
      ptr (Ctx.fill (z :: Z) t) ∈ Ctx.ptrs (z :: Z)
  | [], z, t, t' => by simp [Ctx.fill, Ctx.ptrs]
  | y :: Z, z, t, t' => by
    obtain ⟨h1, h2⟩ := ptr_fill (Z := Z) (z := y) (.mk z.dir z.color t z.ptr z.sib)
      (.mk z.dir z.color t' z.ptr z.sib)
    exact ⟨h1, List.mem_cons_of_mem _ (List.mem_append_right _ h2)⟩

/-- The memory in which the leftmost node has left its place to its right child. -/
theorem unlink_at {C : CTree ℕ} {z : Frame ℕ} {m : ℕ} {cs : Color}
    (h : At s (z :: K) (.mk .left cs .nil m C)) :
    At ((s.adoptBlack (ptr C) z.ptr).setChild z.dir z.ptr (ptr C)) (z :: K) (C.paint .black) := by
  obtain ⟨hm, -, -, -, -, hC⟩ := rep_mk.mp h.tree
  have hnd := h.nodup
  simp only [Ctx.nodup_around, CTree.inorder_mk, nodup_ord, mem_ord, List.Disjoint] at hnd
  have hCm := ptr_mem (t := C)
  have hC0 := ptr_ne_zero hC
  have hk : CtxRep (s.adoptBlack (ptr C) z.ptr) (z :: K) m := by
    refine ctxRep_congr (s := s) (by simp) (by grind [Same]) ?_
    have := h.ctx
    rwa [ptr_mk] at this
  have hsib : m ∉ z.sib.inorder := fun hx =>
    hnd.2.2 (Or.inl rfl) (List.mem_cons_of_mem _ (List.mem_append_left _ hx))
  rw [← changeChild_cons hk hm.1 hsib]
  refine h.relink ptr_mk ptr_paint hm.1 (by simp [ord]) (by simp) (by grind [Same])
    (rep_root (s := s) hC ?_ ?_ ?_ ?_)
  all_goals grind [bit, top_cons]

/-- A place in the right subtree of a node. -/
theorem at_right {l X : CTree ℕ} {Z : Ctx ℕ} {n : ℕ} :
    At s (Z ++ ⟨.right, c, n, l⟩ :: K) X ↔ At s K (.mk .left c l n (Ctx.fill Z X)) := by
  rw [at_iff, at_iff, Ctx.fill_append]
  exact Iff.rfl

theorem splice_cons_at {l C : CTree ℕ} {z : Frame ℕ} {Z : Ctx ℕ} {n m r : ℕ} {cs : Color}
    (h : At s K (.mk .left c l n (Ctx.fill (z :: Z) (.mk .left cs .nil m C)))) (hl : l ≠ .nil)
    (hZ : ∀ f ∈ z :: Z, f.dir = .left) (hr0 : s.child .right n = r) {s' : State α}
    (hs' : ∀ x, Same (((s.setChild .left z.ptr (ptr C)).setChild .right m r).rbSetParent r m) s' x)
    (hroot : s'.root = s.root) :
    At ((spliced s' n (ptr l) m (ptr C) z.ptr).rbChangeChild n m (top K)) K
      (.mk .left c l m (Ctx.fill (z :: Z) (C.paint .black))) := by
  obtain ⟨hn, hnpc, hnl, hnr, hl', hr⟩ := rep_mk.mp h.tree
  have hZ' := at_right.mpr h
  have h1 := unlink_at (K := Z ++ ⟨.right, c, n, l⟩ :: K) hZ'
  obtain ⟨hm, -, -, -, -, hC⟩ := rep_mk.mp hZ'.tree
  have hC0 := ptr_ne_zero hC
  have h2 := at_right (Z := z :: Z).mp h1
  obtain ⟨-, -, -, -, -, hr1⟩ := rep_mk.mp h2.tree
  obtain ⟨hptr, hpm⟩ := ptr_fill (Z := Z) (z := z) (.mk .left cs .nil m C) (C.paint .black)
  have hcol := Ctx.color_fill (Z := Z) (f := z) (.mk .left cs .nil m C) (C.paint .black)
  have hmem : ∀ x, x ∈ (Ctx.fill (z :: Z) (C.paint .black)).inorder ↔
      x ∈ C.inorder ∨ x ∈ Ctx.ptrs (z :: Z) := by
    intro x
    rw [Ctx.inorder_fill, Ctx.mem_around, CTree.inorder_paint]
  have hin : (Ctx.fill (z :: Z) (.mk .left cs .nil m C)).inorder =
      m :: (Ctx.fill (z :: Z) (C.paint .black)).inorder := by
    rw [Ctx.inorder_fill, Ctx.inorder_fill, CTree.inorder_mk, CTree.inorder_paint]
    exact Ctx.around_left hZ
  have hzm : z.ptr ∈ Ctx.ptrs (z :: Z) := List.mem_cons_self
  have hzd := hZ z List.mem_cons_self
  have hnd := h.nodup
  simp only [Ctx.nodup_around, CTree.inorder_mk, nodup_ord, hin, List.mem_cons, mem_ord, not_or,
    List.Disjoint, List.nodup_cons] at hnd
  have hdis : ∀ x ∈ C.inorder, x ∉ Ctx.ptrs (z :: Z) := by
    intro x hx hx'
    have := hZ'.nodup
    rw [Ctx.nodup_around, Ctx.ptrs_append] at this
    exact this.2.2 (show x ∈ _ by simp [mem_ord, hx]) (List.mem_append_left _ hx')
  have hlm := ptr_mem (ptr_ne_zero hl' hl)
  have hCm := ptr_mem (t := C)
  have hlpc := rep_reparent_word hl' hn.2 m (ptr_ne_zero hl' hl)
  have hrpc := rep_reparent_word hr hn.2 m
  rw [hptr, hcol] at hrpc
  obtain rfl : r = ptr (Ctx.fill (z :: Z) (C.paint .black)) := by rw [← hr0, ← hptr]; exact hnr
  rw [hptr] at hpm
  generalize Ctx.fill (z :: Z) (C.paint .black) = r' at *
  generalize Ctx.fill (z :: Z) (.mk .left cs .nil m C) = r at *
  have hpc' : ∀ x, s'.parentColor x =
      if x = ptr r' then s.parentColor (ptr r') % 2 ||| m else s.parentColor x := by
    intro x; rw [(hs' x).1]; simp
  have hch' : ∀ d x, s'.child d x = if d = .right ∧ x = m then ptr r'
      else if d = .left ∧ x = z.ptr then ptr C else s.child d x := by
    intro d x; rw [(hs' x).2]; simp
  clear hs' h1 h2 hZ' hZ hr hC hl hptr hcol
  obtain ⟨⟨hnl', ⟨hnm, hnr'⟩, hlnd, ⟨hmr, hrnd⟩, hlr⟩, -, hKd⟩ := hnd
  have hzr : z.ptr ∈ r'.inorder := (hmem _).mpr (Or.inr hzm)
  have hrr : ptr r' ∈ r'.inorder := (hmem _).mpr (Or.inr hpm)
  have hCr : ptr C ≠ 0 → ptr C ∈ r'.inorder := fun h0 => (hmem _).mpr (Or.inl (hCm h0))
  set X := spliced s' n (ptr l) m (ptr C) z.ptr with hX
  -- the fields that the splice leaves alone
  have hpcX : ∀ x, x ≠ m → x ≠ ptr l → x ≠ ptr r' → ¬ (ptr C ≠ 0 ∧ x = ptr C) →
      X.parentColor x = s.parentColor x := by
    intro x h1 h2 h3 h4
    rw [parentColor_spliced, if_neg h4, if_neg h1, if_neg h2, hpc', if_neg h3]
  have hchX : ∀ x, x ≠ m → x ≠ z.ptr → ∀ d, X.child d x = s.child d x := by
    intro x h1 h2 d
    rw [child_spliced, hch']; simp [h1, h2]
  have hml : m ∉ l.inorder := fun h => hlr h (Or.inl rfl)
  have hmC : ¬ (ptr C ≠ 0 ∧ m = ptr C) := fun h => hmr (h.2 ▸ hCr h.1)
  have hlC : ¬ (ptr C ≠ 0 ∧ ptr l = ptr C) := fun h => hlr hlm (Or.inr (h.2 ▸ hCr h.1))
  have hrC : ¬ (ptr C ≠ 0 ∧ ptr r' = ptr C) := fun h => hdis _ (hCm h.1) (h.2 ▸ hpm)
  refine h.relink ptr_mk ptr_mk hn.1 ?_ (by simp [hX, hroot]) ?_ (rep_mk.mpr ⟨hm, ?_, ?_,
    ?_, rep_reparent (s := s) hl' hlnd ?_ ?_ ?_, rep_reparent hr1 hrnd ?_ ?_ ?_⟩)
  · simp [ord, hin]
  · intro x hx
    have hxm : x ≠ m := by rintro rfl; exact hKd (Or.inr (Or.inr (Or.inl rfl))) hx
    have hxl : x ∉ l.inorder := fun h' => hKd (Or.inr (Or.inl h')) hx
    have hxr : x ∉ r'.inorder := fun h' => hKd (Or.inr (Or.inr (Or.inr h'))) hx
    exact ⟨hpcX x hxm (fun h' => hxl (h' ▸ hlm)) (fun h' => hxr (h' ▸ hrr))
      (fun h' => hxr (h'.2 ▸ hCr h'.1)), hchX x hxm (fun h' => hxr (h' ▸ hzr))⟩
  · have e : n ≠ ptr r' := fun h' => hnr' (h' ▸ hrr)
    rw [parentColor_spliced, if_neg hmC, if_pos rfl, hpc', if_neg e, hnpc]
  · rw [child_spliced]; simp
  · rw [child_spliced, hch']; simp [Dir.flip]
  · intro x hx hne
    have hxr : x ∉ r'.inorder := fun h' => hlr hx (Or.inr h')
    exact hpcX x (fun h' => hml (h' ▸ hx)) hne (fun h' => hxr (h' ▸ hrr))
      (fun h' => hxr (h'.2 ▸ hCr h'.1))
  · intro x hx
    exact hchX x (fun h' => hml (h' ▸ hx)) (fun h' => hlr hx (Or.inr (h' ▸ hzr)))
  · intro _
    have e1 : ptr l ≠ m := fun h' => hml (h' ▸ hlm)
    have e2 : ptr l ≠ ptr r' := fun h' => hlr hlm (Or.inr (h' ▸ hrr))
    rw [parentColor_spliced, if_neg hlC, if_neg e1, if_pos rfl, hpc', if_neg e2, hlpc]
  · intro x hx hne
    have hxm : x ≠ m := fun h' => hmr (h' ▸ hx)
    have hxl : x ≠ ptr l := fun h' => hlr hlm (Or.inr (h' ▸ hx))
    rw [parentColor_setChild, parentColor_adoptBlack]
    by_cases hxC : ptr C ≠ 0 ∧ x = ptr C
    · rw [if_pos hxC, parentColor_spliced, if_pos hxC]
    · rw [if_neg hxC]
      exact hpcX x hxm hxl hne hxC
  · intro x hx d
    have hxm : x ≠ m := fun h' => hmr (h' ▸ hx)
    rw [child_setChild, child_adoptBlack, child_spliced, hch', hzd]
    simp [hxm]
  · intro h0
    have e1 : ptr r' ≠ m := fun h' => hmr (h' ▸ hrr)
    have e2 : ptr r' ≠ ptr l := fun h' => hlr hlm (Or.inr (h' ▸ hrr))
    rw [parentColor_spliced, if_neg hrC, if_neg e1, if_neg e2, hpc', if_pos rfl, hrpc h0]

/-! ### All shapes together -/

/-- The successor has taken the place of `n`: the rest of the right subtree is short where the
successor was a black leaf. -/
theorem erased_successor {s' : State α} {l C : CTree ℕ} {Z : Ctx ℕ} {n m : ℕ} {cs : Color}
    (hrb : (K.fill (.mk .left c l n (Ctx.fill Z (.mk .left cs .nil m C)))).RedBlack)
    (hZ : ∀ f ∈ Z, f.dir = .left)
    (h : At s' K (.mk .left c l m (Ctx.fill Z (C.paint .black))))
    (hJ : J s'.aug (K.fill (.mk .left c l m (Ctx.fill Z (C.paint .black))))) :
    Erased J (K.around (l.inorder ++ (Ctx.fill Z (.mk .left cs .nil m C)).inorder))
      (s', if ptr C ≠ 0 then 0
        else if cs = .black then top (Z ++ ⟨.right, c, m, l⟩ :: K) else 0) := by
  have hrb' : (Ctx.fill (Z ++ ⟨.right, c, n, l⟩ :: K) (.mk .left cs .nil m C)).RedBlack := by
    rw [Ctx.fill_append]; exact hrb
  obtain ⟨hr, ⟨k, hh, hK⟩, hacc⟩ := Ctx.redBlack_unfill hrb'
  replace hK := Ctx.height_relabel (q := m) hK
  replace hacc := Ctx.accepts_relabel (q := m) hacc
  rw [CTree.color_mk] at hacc
  have hat := at_right.mpr h
  have hJ' : J s'.aug (Ctx.fill (Z ++ ⟨.right, c, m, l⟩ :: K) (C.paint .black)) := by
    rw [Ctx.fill_append]; exact hJ
  have hin : K.around (l.inorder ++ (Ctx.fill Z (.mk .left cs .nil m C)).inorder) =
      Ctx.around (Z ++ ⟨.right, c, m, l⟩ :: K) C.inorder := by
    rw [Ctx.inorder_fill, CTree.inorder_mk, Ctx.around_append]
    show K.around (l.inorder ++ Z.around (m :: C.inorder)) = _
    rw [Ctx.around_left hZ]
    rfl
  rw [hin]
  by_cases hC : C = .nil
  · subst hC
    rw [if_neg (by simp)]
    obtain ⟨k', rfl, hk', -⟩ := CTree.height_mk.mp hh
    obtain rfl : k' = 0 := hk'
    rw [Nat.zero_add] at hK
    exact erased_remove hat hK hacc hJ'
  · have hC0 : ptr C ≠ 0 := by
      rw [← ptr_paint (c := .black)]
      refine ptr_ne_zero hat.tree fun h0 => hC ?_
      cases C with
      | nil => rfl
      | node => cases h0
    rw [if_pos hC0]
    obtain ⟨rfl, hCr, hCh, hCc⟩ := one_child hC hr hh
    refine Erased.done (at_iff.mp hat) (Ctx.redBlack_fill hCr hCh hK (by rw [hCc]; exact hacc)) ?_
      hJ'
    rw [Ctx.inorder_fill, CTree.inorder_paint]

/-- **Taking the node out.** -/
theorem rbEraseAugmented_spec (hcb : EraseRule cb J) {l r : CTree ℕ} {n fuel : ℕ}
    (h : At s K (.mk .left c l n r)) (hJ : J s.aug (K.fill (.mk .left c l n r)))
    (hrb : (K.fill (.mk .left c l n r)).RedBlack) (hf : r.inorder.length ≤ fuel) :
    ∃ res, rbEraseAugmented cb fuel s n = some res ∧
      Erased J (K.around (l.inorder ++ r.inorder)) res := by
  obtain ⟨hn, hnpc, hnl, hnr, hl, hr⟩ := rep_mk.mp h.tree
  have hpar : pcParent (s.parentColor n) = top K := by rw [hnpc, pcParent_or (top_aligned h.ctx)]
  have hnr' : s.child .right n = ptr r := hnr
  unfold rbEraseAugmented
  simp only [hnl, hnr', hpar]
  by_cases hl0 : l = .nil
  · subst hl0
    rw [if_pos ptr_nil]
    refine ⟨_, rfl, ?_⟩
    by_cases hr0 : r = .nil
    · subst hr0
      obtain ⟨-, ⟨k, hh, hK⟩, hacc⟩ := Ctx.redBlack_unfill hrb
      obtain ⟨k', rfl, hk', -⟩ := CTree.height_mk.mp hh
      obtain rfl : k' = 0 := hk'
      rw [CTree.color_mk] at hacc
      rw [Nat.zero_add] at hK
      simp only [ptr_nil, ne_eq, not_true_eq_false, if_false, hnpc, pcIsBlack_or (top_aligned h.ctx),
        decide_eq_true_eq]
      exact erased_remove ((remove_at h).augment _) hK hacc
        (hcb.lift (remove_at h) ⟨c, rfl⟩ (by rw [aug_changeChild]; exact hJ))
    · simp only [ne_eq, ptr_ne_zero hr hr0, not_false_eq_true, if_true, changeChild_setPc]
      exact erased_replace ((replace_at h hr0).augment _) hr0 hrb
        (hcb.lift (replace_at h hr0) ⟨c, rfl⟩ (by rw [aug_changeChild]; exact hJ))
  · rw [if_neg (ptr_ne_zero hl hl0)]
    by_cases hr0 : r = .nil
    · subst hr0
      rw [if_pos ptr_nil]
      refine ⟨_, rfl, ?_⟩
      have hflip : CTree.mk .left c l n .nil = .mk .right c .nil n l := rfl
      rw [hflip] at h hrb hJ
      simp only [CTree.inorder_nil, List.append_nil]
      exact erased_replace ((replace_at h hl0).augment _) hl0 hrb
        (hcb.lift (replace_at h hl0) ⟨c, rfl⟩ (by rw [aug_changeChild]; exact hJ))
    · rw [if_neg (ptr_ne_zero hr hr0)]
      have hnd := h.nodup
      simp only [Ctx.nodup_around, CTree.inorder_mk, nodup_ord, List.Disjoint] at hnd
      have hlm := ptr_mem (ptr_ne_zero hl hl0)
      have hnl' : n ≠ ptr l := fun h' => hnd.1.1 (h' ▸ hlm)
      by_cases hleft : s.child .left (ptr r) = 0
      · -- the successor is the right child
        rw [if_pos hleft]
        obtain ⟨cs, a, m, C, rfl⟩ := CTree.exists_mk .left hr0
        obtain ⟨hm, hmpc, hml, hmr, ha, hC⟩ := rep_mk.mp hr
        rw [ptr_mk] at hleft
        obtain rfl : a = .nil := (ptr_eq_zero_iff ha).mp (by rw [← hml]; exact hleft)
        have hml' : m ≠ ptr l := fun h' =>
          hnd.1.2.2.2.2 hlm (by rw [← h']; exact (CTree.inorder_mk (d := .left)) ▸ mem_ord.mpr (Or.inl rfl))
        have hmr' : s.child .right m = ptr C := hmr
        have hb := eraseSplice_eq cb (s := s.augment (cb.copy s n m)) m (ptr C) hnl hnl' hml'
        refine ⟨_, rfl, ?_⟩
        rw [ptr_mk, child_augment, hmr', hb, parentColor_augment, parentColor_augment, hpar,
          hmpc, pcIsBlack_or hn.2]
        simp only [decide_eq_true_eq]
        have hsp := splice_nil_at (h.augment (cb.copy s n m)) hl0
        exact erased_successor (Z := []) hrb (by simp) (hsp.augment _)
          (hcb.splice h rfl (by simp) hsp hJ)
      · rw [if_neg hleft]
        obtain ⟨z, Z, cs, m, C, hfill, hZ, hfind⟩ := findSuccessor_spec hr hf hleft hr0
        have hZ' := at_right (Z := z :: Z) (X := .mk .left cs .nil m C).mpr (by rw [hfill] at h; exact h)
        obtain ⟨hm, hmpc, -, hmr, -, hC⟩ := rep_mk.mp hZ'.tree
        have hmem : m ∈ r.inorder := by
          rw [hfill, Ctx.inorder_fill, Ctx.mem_around]
          exact Or.inl (by show m ∈ [] ++ m :: C.inorder; simp)
        have hml' : m ≠ ptr l := fun h' => hnd.1.2.2.2.2 hlm (h' ▸ hmem)
        have hmr' : s.child .right m = ptr C := hmr
        rw [hfind]
        simp only [Option.bind_eq_bind, Option.bind_some, hmr']
        refine ⟨_, rfl, ?_⟩
        set s1 := ((s.setChild .left z.ptr (ptr C)).setChild .right m (ptr r)).rbSetParent (ptr r) m
          with hs1
        set s2 := (s1.augment (cb.copy s1 n m)).augment
          (cb.propagate (s1.augment (cb.copy s1 n m)) z.ptr m) with hs2
        have hsame : ∀ x, Same s1 s2 x := fun x => ⟨rfl, fun _ => rfl⟩
        have hzr : z.ptr ∈ r.inorder := by
          rw [hfill, Ctx.inorder_fill, Ctx.mem_around]
          exact Or.inr List.mem_cons_self
        have hrr := ptr_mem (ptr_ne_zero hr hr0)
        have hmr0 : m ≠ ptr r := by
          have hpm := (ptr_fill (Z := Z) (z := z) (.mk .left cs .nil m C) .nil).2
          have hnd' := hZ'.nodup
          rw [Ctx.nodup_around, Ctx.ptrs_append] at hnd'
          intro h'
          refine hnd'.2.2 (show m ∈ _ by simp [mem_ord]) (List.mem_append_left _ ?_)
          rw [h', hfill]
          exact hpm
        have hnz : n ≠ z.ptr := fun h' => hnd.1.2.1 (h' ▸ hzr)
        have hnr0 : n ≠ ptr r := fun h' => hnd.1.2.1 (h' ▸ hrr)
        have hn1 : s1.parentColor n = s.parentColor n := by simp [hs1, hnr0]
        have hm1 : s1.parentColor m = s.parentColor m := by simp [hs1, hmr0]
        have hl1 : s1.child .left n = ptr l := by simp [hs1, hnz, hnl]
        have hb := eraseSplice_eq cb (s := s2) z.ptr (ptr C) hl1 hnl' hml'
        rw [hb]
        have hn2 : s2.parentColor n = s.parentColor n := hn1
        have hm2 : s2.parentColor m = s.parentColor m := hm1
        simp only [hn2, hm2, hpar, hmpc, List.cons_append, top_cons]
        rw [pcIsBlack_or hZ'.ctx.1.2]
        simp only [decide_eq_true_eq]
        have hfill' : r = Ctx.fill (z :: Z) (.mk .left cs .nil m C) := hfill
        have hsp := splice_cons_at (hfill' ▸ h) hl0 hZ hnr' hsame rfl
        have hdata := hcb.spliceDeep hfill' hZ h hs1 (by rw [aug_changeChild, aug_spliced]; rfl) hsp hJ
        rw [hfill']
        rw [hfill'] at hrb
        exact erased_successor (Z := z :: Z) hrb hZ (hsp.augment _) hdata

/-- **`rb_erase`** removes the node and leaves a red-black tree, given fuel for its loops. -/
theorem rbEraseWith_spec (hcb : EraseRule cb J) {t : CTree ℕ} {n : ℕ} (fuel : ℕ) (h : TreeOf s t)
    (hJ : J s.aug t) (hrb : t.RedBlack)
    (hn : n ∈ t.inorder) (hf : t.inorder.length ≤ fuel) :
    ∃ s' t', rbEraseWith cb fuel s n = some s' ∧ TreeOf s' t' ∧ t'.RedBlack ∧
      t'.inorder = t.inorder.erase n ∧ J s'.aug t' := by
  obtain ⟨K, c, l, r, rfl⟩ := Ctx.exists_fill hn
  have hat : At s K (.mk .left c l n r) := at_iff.mpr h
  have hin : (K.fill (.node c l n r)).inorder = K.around (l.inorder ++ n :: r.inorder) :=
    Ctx.inorder_fill _ _
  have herase : (K.fill (.node c l n r)).inorder.erase n = K.around (l.inorder ++ r.inorder) := by
    have hnd := h.nodup
    rw [hin] at hnd ⊢
    rw [Ctx.around_eq] at hnd ⊢
    have hpre : n ∉ K.before := fun hx => (List.nodup_append.mp hnd).2.2 n hx n (by simp) rfl
    have hl : n ∉ l.inorder := fun hx => by
      have hnd' := (List.nodup_append.mp (List.nodup_append.mp hnd).2.1).1
      exact (List.nodup_append.mp hnd').2.2 n hx n (by simp) rfl
    rw [Ctx.around_eq, List.erase_append_right _ hpre, List.append_assoc, List.erase_append_right _ hl,
      List.cons_append, List.erase_cons_head, List.append_assoc]
  have hlen : (K.around (l.inorder ++ r.inorder)).length < fuel := by
    rw [← herase, List.length_erase_of_mem hn]
    have := List.length_pos_of_mem hn
    omega
  have hr : r.inorder.length ≤ fuel := by
    have := (Ctx.around_perm K (l.inorder ++ r.inorder)).length_eq
    rw [List.length_append, List.length_append] at this
    omega
  obtain ⟨⟨s1, reb⟩, he, hres⟩ := rbEraseAugmented_spec cb hcb hat hJ hrb hr
  unfold rbEraseWith
  rw [he, herase]
  simp only [Option.bind_eq_bind, Option.bind_some]
  cases hres with
  | @done _ t' mem redBlack inorder data => exact ⟨s1, t', rfl, mem, redBlack, inorder, data⟩
  | @short _ f K' mem height accepts inorder data =>
    rw [if_pos mem.ctx.1.1, ← inorder]
    refine rbEraseColorLoop_spec cb hcb.toUpkeep fuel f K' s1 .nil 0 ?_ mem data trivial rfl height
      accepts
    have := Ctx.length_le_around (f :: K') []
    rw [inorder] at this
    simp only [List.length_cons] at this
    omega

end HardStack.Rbtree.Erase
