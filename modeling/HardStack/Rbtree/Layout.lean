import HardStack.Rbtree.Model

/-! # Trees in memory

`Rep s par t`: the memory `s` holds the tree `t` below the parent `par`, with every parent field and
colour packed as in the source. `CtxRep s K h` is the same for a context with the hole at `h`, and
`At s K t` puts the two together without overlap; it is the whole tree seen from one of its nodes
(`at_iff`). The frame lemmas say which writes leave a tree or a context alone. -/

namespace HardStack.Rbtree.Layout

open HardStack.Lib.RbTree HardStack.Rbtree.Model

variable {α : Type} {s : State α} {t : CTree ℕ} {K : Ctx ℕ}

/-! ### Words -/

/-- The address of a node: not `NULL`, and aligned. -/
def Addr (p : ℕ) : Prop := p ≠ 0 ∧ 4 ∣ p

def bit : Color → ℕ
  | .red => RB_RED
  | .black => RB_BLACK

theorem or_bit {p : ℕ} (h : 4 ∣ p) (c : Color) : p ||| bit c = p + c.weight := by
  obtain ⟨k, rfl⟩ := h
  cases c
  · simp [bit, RB_RED, Color.weight]
  · have := Nat.lor_bit false (2 * k) true 0
    simp only [Nat.bit] at this
    simp only [bit, RB_BLACK, Color.weight]
    rw [show 4 * k = 2 * (2 * k) by ring]
    simpa using this

theorem pcParent_or {p : ℕ} (h : 4 ∣ p) (c : Color) : pcParent (p ||| bit c) = p := by
  rw [or_bit h]
  unfold pcParent
  cases c <;> simp only [Color.weight] <;> omega

theorem pcIsBlack_or {p : ℕ} (h : 4 ∣ p) (c : Color) :
    pcIsBlack (p ||| bit c) = decide (c = .black) := by
  rw [or_bit h]
  unfold pcIsBlack
  cases c
  · simp only [Color.weight]; rw [show (p + 0) % 2 = 0 by omega]; rfl
  · simp only [Color.weight]; rw [show (p + 1) % 2 = 1 by omega]; rfl

theorem mod_two_or {p : ℕ} (h : 4 ∣ p) (q : ℕ) (c : Color) :
    (p ||| bit c) % 2 ||| q = q ||| bit c := by
  have hc : (p ||| bit c) % 2 = bit c := by
    rw [or_bit h]
    cases c <;> simp only [Color.weight, bit, RB_RED, RB_BLACK] <;> omega
  rw [hc, Nat.lor_comm]

theorem or_black (p : ℕ) (c : Color) :
    (p ||| bit c) ||| RB_BLACK = p ||| bit .black := by
  cases c
  · simp [bit, RB_RED]
  · rw [bit, Nat.lor_assoc, Nat.or_self]

/-! ### Reading through writes -/

section

variable (s)

@[simp, grind =] theorem parentColor_setPc (q v x : ℕ) :
    (s.setPc q v).parentColor x = if x = q then v else s.parentColor x := by
  simp [State.setPc, Function.update_apply]

@[simp, grind =] theorem child_setPc (q v : ℕ) (d : Dir) (x : ℕ) :
    (s.setPc q v).child d x = s.child d x := rfl

@[simp, grind =] theorem root_setPc (q v : ℕ) : (s.setPc q v).root = s.root := rfl

@[simp, grind =] theorem parentColor_setChild (d : Dir) (q v x : ℕ) :
    (s.setChild d q v).parentColor x = s.parentColor x := rfl

@[simp, grind =] theorem child_setChild (d d' : Dir) (q v x : ℕ) :
    (s.setChild d q v).child d' x = if d' = d ∧ x = q then v else s.child d' x := by
  by_cases hd : d' = d
  · subst hd; simp [State.setChild, Function.update_apply]
  · simp [State.setChild, hd]

@[simp, grind =] theorem root_setChild (d : Dir) (q v : ℕ) : (s.setChild d q v).root = s.root := rfl

@[simp, grind =] theorem parentColor_setRoot (v x : ℕ) :
    (s.setRoot v).parentColor x = s.parentColor x := rfl

@[simp, grind =] theorem child_setRoot (v : ℕ) (d : Dir) (x : ℕ) :
    (s.setRoot v).child d x = s.child d x := rfl

@[simp, grind =] theorem root_setRoot (v : ℕ) : (s.setRoot v).root = v := rfl

@[simp, grind =] theorem parentColor_augment (a : α) (x : ℕ) :
    (s.augment a).parentColor x = s.parentColor x := rfl

@[simp, grind =] theorem child_augment (a : α) (d : Dir) (x : ℕ) :
    (s.augment a).child d x = s.child d x := rfl

@[simp, grind =] theorem root_augment (a : α) : (s.augment a).root = s.root := rfl

@[simp] theorem aug_setPc (q v : ℕ) : (s.setPc q v).aug = s.aug := rfl

@[simp] theorem aug_setChild (d : Dir) (q v : ℕ) : (s.setChild d q v).aug = s.aug := rfl

@[simp] theorem aug_setRoot (v : ℕ) : (s.setRoot v).aug = s.aug := rfl

@[simp] theorem aug_augment (a : α) : (s.augment a).aug = a := rfl

@[simp, grind =] theorem parentColor_adoptBlack (q p x : ℕ) : (s.adoptBlack q p).parentColor x =
    if q ≠ 0 ∧ x = q then p ||| RB_BLACK else s.parentColor x := by
  unfold State.adoptBlack State.rbSetParentColor
  by_cases hq : q = 0 <;> simp [hq]

@[simp, grind =] theorem child_adoptBlack (q p : ℕ) (d : Dir) (x : ℕ) :
    (s.adoptBlack q p).child d x = s.child d x := by
  unfold State.adoptBlack; split_ifs <;> rfl

@[simp, grind =] theorem root_adoptBlack (q p : ℕ) : (s.adoptBlack q p).root = s.root := by
  unfold State.adoptBlack; split_ifs <;> rfl

@[simp] theorem aug_adoptBlack (q p : ℕ) : (s.adoptBlack q p).aug = s.aug := by
  unfold State.adoptBlack; split_ifs <;> rfl

@[simp, grind =] theorem parentColor_adopt (q p x : ℕ) : (s.adopt q p).parentColor x =
    if q ≠ 0 ∧ x = q then s.parentColor q % 2 ||| p else s.parentColor x := by
  unfold State.adopt State.rbSetParent
  by_cases hq : q = 0 <;> simp [hq]

@[simp, grind =] theorem child_adopt (q p : ℕ) (d : Dir) (x : ℕ) :
    (s.adopt q p).child d x = s.child d x := by
  unfold State.adopt; split_ifs <;> rfl

@[simp, grind =] theorem root_adopt (q p : ℕ) : (s.adopt q p).root = s.root := by
  unfold State.adopt; split_ifs <;> rfl

@[simp] theorem aug_adopt (q p : ℕ) : (s.adopt q p).aug = s.aug := by
  unfold State.adopt; split_ifs <;> rfl

@[simp, grind =] theorem parentColor_rbSetParent (q p x : ℕ) :
    (s.rbSetParent q p).parentColor x =
      if x = q then s.parentColor q % 2 ||| p else s.parentColor x := by
  unfold State.rbSetParent
  simp

@[simp, grind =] theorem child_rbSetParent (q p : ℕ) (d : Dir) (x : ℕ) :
    (s.rbSetParent q p).child d x = s.child d x := rfl

@[simp, grind =] theorem root_rbSetParent (q p : ℕ) : (s.rbSetParent q p).root = s.root := rfl

@[simp, grind =] theorem parentColor_changeChild (old new parent x : ℕ) :
    (s.rbChangeChild old new parent).parentColor x = s.parentColor x := by
  unfold State.rbChangeChild; split_ifs <;> rfl

@[simp] theorem aug_changeChild (old new parent : ℕ) :
    (s.rbChangeChild old new parent).aug = s.aug := by
  unfold State.rbChangeChild; split_ifs <;> rfl

@[simp] theorem aug_rotateSetParents (old new color : ℕ) :
    (s.rbRotateSetParents old new color).aug = s.aug := by
  unfold State.rbRotateSetParents State.rbSetParentColor
  simp

theorem child_changeChild {old new parent x : ℕ} (d : Dir) (h : x ≠ parent) :
    (s.rbChangeChild old new parent).child d x = s.child d x := by
  unfold State.rbChangeChild; split_ifs <;> simp [h]

end

/-! ### Representation -/

/-- The pointer to a tree. -/
def ptr : CTree ℕ → ℕ
  | .nil => 0
  | .node _ _ p _ => p

@[simp] theorem ptr_nil : ptr .nil = 0 := rfl

@[simp] theorem ptr_mk {d : Dir} {c : Color} {a b : CTree ℕ} {p : ℕ} :
    ptr (.mk d c a p b) = p := by cases d <;> rfl

@[simp, grind =] theorem ptr_paint {c : Color} {t : CTree ℕ} : ptr (t.paint c) = ptr t := by
  cases t <;> rfl

/-- The memory holds the tree below the parent `par`. -/
def Rep (s : State α) : ℕ → CTree ℕ → Prop
  | _, .nil => True
  | par, .node c l p r => Addr p ∧ s.parentColor p = par ||| bit c ∧ s.child .left p = ptr l ∧
      s.child .right p = ptr r ∧ Rep s p l ∧ Rep s p r

@[simp] theorem rep_nil {par : ℕ} : Rep s par .nil := trivial

@[simp] theorem rep_mk {d : Dir} {c : Color} {a b : CTree ℕ} {p par : ℕ} :
    Rep s par (.mk d c a p b) ↔ Addr p ∧ s.parentColor p = par ||| bit c ∧ s.child d p = ptr a ∧
      s.child d.flip p = ptr b ∧ Rep s p a ∧ Rep s p b := by
  cases d
  · exact Iff.rfl
  · show Addr p ∧ _ ∧ _ ∧ _ ∧ _ ∧ _ ↔ _
    simp only [Dir.flip]
    tauto

theorem ptr_eq_or_mem (t : CTree ℕ) : t = .nil ∨ ptr t ∈ t.inorder := by
  cases t with
  | nil => exact Or.inl rfl
  | node c l p r =>
    right
    show p ∈ l.inorder ++ p :: r.inorder
    simp

theorem ptr_mem {t : CTree ℕ} (h : ptr t ≠ 0) : ptr t ∈ t.inorder :=
  (ptr_eq_or_mem t).resolve_left (by rintro rfl; exact h rfl)

/-- The address of a tree of the memory is `NULL` only for the empty tree. -/
theorem ptr_ne_zero {par : ℕ} (h : Rep s par t) (hne : t ≠ .nil) : ptr t ≠ 0 := by
  cases t with
  | nil => exact absurd rfl hne
  | node c l p r => exact h.1.1

theorem ptr_eq_zero_iff {par : ℕ} (h : Rep s par t) : ptr t = 0 ↔ t = .nil :=
  ⟨fun h0 => by_contra fun hne => ptr_ne_zero h hne h0, fun h0 => by rw [h0]; rfl⟩

/-- The head node's word. -/
theorem rep_color {par : ℕ} (h : Rep s par t) (hne : t ≠ .nil) :
    s.parentColor (ptr t) = par ||| bit t.color := by
  cases t with
  | nil => exact absurd rfl hne
  | node c l p r => exact h.2.1

/-- The word that `rb_set_parent` writes. -/
theorem rep_reparent_word {par : ℕ} (h : Rep s par t) (h4 : 4 ∣ par) (q : ℕ) (h0 : ptr t ≠ 0) :
    s.parentColor (ptr t) % 2 ||| q = q ||| bit t.color := by
  rw [rep_color h (by rintro rfl; exact h0 rfl), mod_two_or h4]

theorem addr_of_mem {x : ℕ} : ∀ {t : CTree ℕ} {par : ℕ}, Rep s par t → x ∈ t.inorder → Addr x
  | .node c l p r, par, ⟨hp, _, _, _, hl, hr⟩, hx => by
    have hx' : x ∈ l.inorder ++ p :: r.inorder := hx
    rw [List.mem_append, List.mem_cons] at hx'
    rcases hx' with hx | rfl | hx
    · exact addr_of_mem hl hx
    · exact hp
    · exact addr_of_mem hr hx

/-- The fields of a node are as before. -/
def Same (s s' : State α) (x : ℕ) : Prop :=
  s'.parentColor x = s.parentColor x ∧ ∀ d, s'.child d x = s.child d x

/-- **Frame.** A tree depends on the fields of its own nodes only. -/
theorem rep_congr {s' : State α} : ∀ {t : CTree ℕ} {par : ℕ}, (∀ x ∈ t.inorder, Same s s' x) →
    Rep s par t → Rep s' par t
  | .nil, _, _, _ => trivial
  | .node c l p r, par, h, ⟨hp, hpc, hlc, hrc, hl, hr⟩ => by
    have hin : (CTree.node c l p r).inorder = l.inorder ++ p :: r.inorder := rfl
    rw [hin] at h
    obtain ⟨h1, h2⟩ := h p (by simp)
    refine ⟨hp, h1.trans hpc, (h2 _).trans hlc, (h2 _).trans hrc, rep_congr ?_ hl, rep_congr ?_ hr⟩
    · intro x hx; exact h x (by simp [hx])
    · intro x hx; exact h x (by simp [hx])

/-- The tree keeps its place in memory when its root gets a new parent or a new colour. -/
theorem rep_root {s' : State α} {par par' : ℕ} {c : Color} (h : Rep s par t) (hnd : t.inorder.Nodup)
    (hpc : ∀ x ∈ t.inorder, x ≠ ptr t → s'.parentColor x = s.parentColor x)
    (hch : ∀ x ∈ t.inorder, ∀ d, s'.child d x = s.child d x)
    (hroot : t ≠ .nil → s'.parentColor (ptr t) = par' ||| bit c) : Rep s' par' (t.paint c) := by
  cases t with
  | nil => trivial
  | node c' l p r =>
    obtain ⟨hp, -, hlc, hrc, hl, hr⟩ := h
    have hin : (CTree.node c' l p r).inorder = l.inorder ++ p :: r.inorder := rfl
    have hlp : p ∉ l.inorder := fun hx => by
      rw [hin, List.nodup_append] at hnd
      exact hnd.2.2 p hx p (by simp) rfl
    have hrp : p ∉ r.inorder := by
      rw [hin, List.nodup_append] at hnd
      exact (List.nodup_cons.mp hnd.2.1).1
    rw [hin] at hpc hch
    refine ⟨hp, hroot (by simp), ?_, ?_, rep_congr ?_ hl, rep_congr ?_ hr⟩
    · rw [hch p (by simp)]; exact hlc
    · rw [hch p (by simp)]; exact hrc
    · intro x hx
      exact ⟨hpc x (by simp [hx]) (ne_of_mem_of_not_mem hx hlp), hch x (by simp [hx])⟩
    · intro x hx
      exact ⟨hpc x (by simp [hx]) (ne_of_mem_of_not_mem hx hrp), hch x (by simp [hx])⟩

/-- The tree under a new parent, its colours unchanged. -/
theorem rep_reparent {s' : State α} {par par' : ℕ} (h : Rep s par t) (hnd : t.inorder.Nodup)
    (hpc : ∀ x ∈ t.inorder, x ≠ ptr t → s'.parentColor x = s.parentColor x)
    (hch : ∀ x ∈ t.inorder, ∀ d, s'.child d x = s.child d x)
    (hroot : ptr t ≠ 0 → s'.parentColor (ptr t) = par' ||| bit t.color) : Rep s' par' t := by
  rw [← CTree.paint_color (t := t) rfl]
  exact rep_root h hnd hpc hch fun hne => hroot (ptr_ne_zero h hne)

/-! ### Contexts -/

/-- The parent of the hole. -/
def top : Ctx ℕ → ℕ
  | [] => 0
  | f :: _ => f.ptr

@[simp] theorem top_nil : top [] = 0 := rfl

@[simp] theorem top_cons {f : Frame ℕ} : top (f :: K) = f.ptr := rfl

/-- The memory holds the context, with `h` in the hole. -/
def CtxRep (s : State α) : Ctx ℕ → ℕ → Prop
  | [], h => s.root = h
  | f :: K, h => Addr f.ptr ∧ s.parentColor f.ptr = top K ||| bit f.color ∧
      s.child f.dir f.ptr = h ∧ s.child f.dir.flip f.ptr = ptr f.sib ∧ Rep s f.ptr f.sib ∧
      CtxRep s K f.ptr

theorem ctxRep_congr {s' : State α} : ∀ {K : Ctx ℕ} {h : ℕ}, s'.root = s.root →
    (∀ x ∈ K.ptrs, Same s s' x) → CtxRep s K h → CtxRep s' K h
  | [], _, hr, _, hk => hr.trans hk
  | f :: K, h, hr, hx, ⟨hp, hpc, hc1, hc2, hsib, hk⟩ => by
    have hin : Ctx.ptrs (f :: K) = f.ptr :: (f.sib.inorder ++ Ctx.ptrs K) := rfl
    rw [hin] at hx
    obtain ⟨h1, h2⟩ := hx f.ptr (by simp)
    refine ⟨hp, h1.trans hpc, (h2 _).trans hc1, (h2 _).trans hc2, rep_congr ?_ hsib,
      ctxRep_congr hr ?_ hk⟩
    · intro x hxs; exact hx x (by simp [hxs])
    · intro x hxs; exact hx x (by simp [hxs])

theorem top_aligned {h : ℕ} (hk : CtxRep s K h) : 4 ∣ top K := by
  cases K with
  | nil => exact dvd_zero 4
  | cons f K => exact hk.1.2

theorem top_eq_zero {h : ℕ} (hk : CtxRep s K h) : top K = 0 ↔ K = [] := by
  cases K with
  | nil => simp
  | cons f K => simp [hk.1.1]

theorem top_mem (K : Ctx ℕ) : K = [] ∨ top K ∈ K.ptrs := by
  cases K with
  | nil => exact Or.inl rfl
  | cons f K => exact Or.inr List.mem_cons_self

/-- Below a context, `__rb_change_child` writes the field that points to the hole. -/
theorem changeChild_cons {f : Frame ℕ} {old new : ℕ} (hk : CtxRep s (f :: K) old) (h0 : old ≠ 0)
    (hold : old ∉ f.sib.inorder) :
    s.rbChangeChild old new f.ptr = s.setChild f.dir f.ptr new := by
  obtain ⟨hp, -, hc1, hc2, -, -⟩ := hk
  -- the old child is not also the child on the other side
  have hne : ptr f.sib ≠ old := by
    rintro rfl
    exact hold (ptr_mem h0)
  unfold State.rbChangeChild
  rw [if_pos hp.1]
  cases hd : f.dir with
  | left => rw [hd] at hc1; rw [if_pos hc1]
  | right =>
    rw [hd] at hc2
    rw [if_neg (by rw [show Dir.left = Dir.right.flip from rfl, hc2]; exact hne)]

/-- `__rb_change_child` replaces what is in the hole. -/
theorem ctxRep_changeChild {old new : ℕ} (hk : CtxRep s K old) (h0 : old ≠ 0)
    (hnd : K.ptrs.Nodup) (hold : old ∉ K.ptrs) :
    CtxRep (s.rbChangeChild old new (top K)) K new := by
  cases K with
  | nil => simp [State.rbChangeChild, CtxRep]
  | cons f K =>
    have hin : Ctx.ptrs (f :: K) = f.ptr :: (f.sib.inorder ++ Ctx.ptrs K) := rfl
    rw [hin, List.nodup_cons, List.mem_append, not_or] at hnd
    rw [top_cons, changeChild_cons hk h0 fun hx => hold (by rw [hin]; simp [hx])]
    obtain ⟨hp, hpc, hc1, hc2, hsib, hk⟩ := hk
    have hframe : ∀ x, x ≠ f.ptr → Same s (s.setChild f.dir f.ptr new) x := by
      intro x hx; simp [Same, hx]
    refine ⟨hp, hpc, by simp, by simp [hc2], rep_congr ?_ hsib, ctxRep_congr (s := s) rfl ?_ hk⟩
    · intro x hx; exact hframe x (fun h => hnd.1.1 (h ▸ hx))
    · intro x hx; exact hframe x (fun h => hnd.1.2 (h ▸ hx))

theorem changeChild_setPc (old new par q v : ℕ) : (s.rbChangeChild old new par).setPc q v =
    (s.setPc q v).rbChangeChild old new par := by
  unfold State.rbChangeChild
  rw [child_setPc]
  split_ifs <;> rfl

/-- The memory holds the tree `t` in the context `K`. -/
structure At (s : State α) (K : Ctx ℕ) (t : CTree ℕ) : Prop where
  ctx : CtxRep s K (ptr t)
  tree : Rep s (top K) t
  nodup : (K.around t.inorder).Nodup

/-- **The memory holds the tree** as that of its root. -/
structure TreeOf (s : State α) (t : CTree ℕ) : Prop where
  root : s.root = ptr t
  tree : Rep s 0 t
  nodup : t.inorder.Nodup

theorem at_cons {f : Frame ℕ} :
    At s (f :: K) t ↔ At s K (.mk f.dir f.color t f.ptr f.sib) := by
  constructor
  · rintro ⟨⟨hp, hpc, hc1, hc2, hsib, hk⟩, ht, hnd⟩
    refine ⟨by rwa [ptr_mk], rep_mk.mpr ⟨hp, hpc, hc1, hc2, ht, hsib⟩, ?_⟩
    rw [CTree.inorder_mk]; exact hnd
  · rintro ⟨hk, ht, hnd⟩
    obtain ⟨hp, hpc, hc1, hc2, ht, hsib⟩ := rep_mk.mp ht
    rw [ptr_mk] at hk
    rw [CTree.inorder_mk] at hnd
    exact ⟨⟨hp, hpc, hc1, hc2, hsib, hk⟩, ht, hnd⟩

/-- **The whole tree from one of its nodes.** -/
theorem at_iff : ∀ {K : Ctx ℕ} {t : CTree ℕ}, At s K t ↔ TreeOf s (K.fill t)
  | [], _ => ⟨fun h => ⟨h.ctx, h.tree, h.nodup⟩, fun h => ⟨h.root, h.tree, h.nodup⟩⟩
  | _ :: _, _ => at_cons.trans at_iff

/-! ### Rewriting below a context -/

theorem At.addr (h : At s K t) {x : ℕ} (hx : x ∈ t.inorder) : Addr x := addr_of_mem h.tree hx

/-- The parent of the hole is not in the tree below. -/
theorem At.ne_top (h : At s K t) {x : ℕ} (hx : x ∈ t.inorder) : x ≠ top K := by
  rintro rfl
  rcases top_mem K with h1 | h1
  · exact (h.addr hx).1 (by rw [h1]; rfl)
  · exact (Ctx.nodup_around.mp h.nodup).2.2 hx h1

/-- **Relinking.** A memory that holds a new tree over the same nodes, and the old context, holds
the new tree in the context once the parent's child field is changed. -/
theorem At.relink {s' : State α} {t' : CTree ℕ} {old new : ℕ} (h : At s K t) (hold : ptr t = old)
    (hnew : ptr t' = new) (h0 : old ≠ 0) (hin : t'.inorder.Sublist t.inorder)
    (hroot : s'.root = s.root) (hK : ∀ x ∈ K.ptrs, Same s s' x) (ht' : Rep s' (top K) t') :
    At (s'.rbChangeChild old new (top K)) K t' := by
  subst hold hnew
  obtain ⟨hnd, hKnd, hdis⟩ := Ctx.nodup_around.mp h.nodup
  have hmem : ptr t ∈ t.inorder := ptr_mem h0
  refine ⟨?_, rep_congr (s := s') ?_ ht', ?_⟩
  · refine ctxRep_changeChild (ctxRep_congr (s := s) hroot hK h.ctx) h0 hKnd ?_
    exact fun hk => hdis hmem hk
  · intro x hx
    exact ⟨parentColor_changeChild s' _ _ _ x,
      fun d => child_changeChild s' d (h.ne_top (hin.subset hx))⟩
  · exact Ctx.nodup_around.mpr ⟨hnd.sublist hin, hKnd, fun x hx hk => hdis (hin.subset hx) hk⟩

theorem At.augment (h : At s K t) (a : α) : At (s.augment a) K t :=
  ⟨ctxRep_congr (s := s) rfl (fun _ _ => ⟨rfl, fun _ => rfl⟩) h.ctx,
    rep_congr (s := s) (fun _ _ => ⟨rfl, fun _ => rfl⟩) h.tree, h.nodup⟩

/-- `__rb_rotate_set_parents` below a context: the two words, and the parent's child field. -/
theorem rotateSetParents_eq {c : Color} {old new color : ℕ} (hk : 4 ∣ top K)
    (hpc : s.parentColor old = top K ||| bit c) :
    s.rbRotateSetParents old new color =
      ((s.setPc new (top K ||| bit c)).setPc old (new ||| color)).rbChangeChild old new (top K) := by
  unfold State.rbRotateSetParents State.rbParent State.rbSetParentColor
  rw [hpc, pcParent_or hk]

/-! ### Colour tests -/

theorem isBlack_top {f : Frame ℕ} {h : ℕ} (hk : CtxRep s (f :: K) h) :
    s.rbIsBlack f.ptr = decide (f.color = .black) := by
  unfold State.rbIsBlack
  rw [hk.2.1, pcIsBlack_or (top_aligned hk.2.2.2.2.2)]

/-- The test `tmp && rb_is_red(tmp)`. -/
theorem red_test {t : CTree ℕ} {par : ℕ} (h : Rep s par t) (h4 : 4 ∣ par) :
    (ptr t ≠ 0 ∧ s.rbIsRed (ptr t) = true) ↔ t.color = .red := by
  by_cases hne : t = .nil
  · subst hne; simp
  · unfold State.rbIsRed State.rbIsBlack
    rw [rep_color h hne, pcIsBlack_or h4]
    have := ptr_ne_zero h hne
    cases t.color <;> simp [this]

/-- The test `!tmp || rb_is_black(tmp)`. -/
theorem black_test {t : CTree ℕ} {par : ℕ} (h : Rep s par t) (h4 : 4 ∣ par) :
    (ptr t = 0 ∨ s.rbIsBlack (ptr t) = true) ↔ t.color = .black := by
  by_cases hne : t = .nil
  · subst hne; simp
  · unfold State.rbIsBlack
    rw [rep_color h hne, pcIsBlack_or h4]
    have := ptr_ne_zero h hne
    cases t.color <;> simp [this]

end HardStack.Rbtree.Layout
