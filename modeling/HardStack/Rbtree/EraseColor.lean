import HardStack.Rbtree.Callbacks

/-! # Rebalancing after an erasure

The loop of `____rb_erase_color` climbs the context of a subtree that is one black node short. A
round either mends the context (`Outcome.done`) or leaves the whole subtree at `parent` short by one
(`Outcome.up`), and then `parent` was black. -/

namespace HardStack.Rbtree.EraseColor

open HardStack.Lib.RbTree HardStack.Rbtree.Model HardStack.Rbtree.Layout
open HardStack.Rbtree.Callbacks

variable {α : Type} {s : State α} {K : Ctx ℕ} (cb : AugmentCallbacks α) {d : Dir} {c c' : Color}
  {J : α → CTree ℕ → Prop}

/-! ### The cases in memory -/

theorem eraseRedSibling_at {N A C : CTree ℕ} {p q : ℕ} (h : At s K (.mk d c N p (.mk d c' A q C)))
    (hA : A.color = .black) (hne : A ≠ .nil) :
    At (eraseRedSibling cb s d p q).1 K (.mk d c (.mk d .red N p A) q C) ∧
      (eraseRedSibling cb s d p q).2 = ptr A := by
  obtain ⟨hp, hppc, hpd, hpf, hN, ht⟩ := rep_mk.mp h.tree
  obtain ⟨hq, hqpc, hqd, hqf, hA', hC⟩ := rep_mk.mp ht
  have hnd := h.nodup
  simp only [Ctx.nodup_around, CTree.inorder_mk, nodup_ord, mem_ord, not_or, List.Disjoint] at hnd
  have hAm := ptr_mem (ptr_ne_zero hA' hne)
  unfold eraseRedSibling State.rbSetParentColor
  simp only [hqd]
  set s1 := ((s.setChild d.flip p (ptr A)).setChild d q p).setPc (ptr A) (p ||| RB_BLACK) with hs1
  have hp1 : s1.parentColor p = top K ||| bit c := by grind
  rw [rotateSetParents_eq (top_aligned h.ctx) hp1]
  refine ⟨At.augment (h.relink ptr_mk ptr_mk hp.1 ?_ ?_ ?_ ?_) _, trivial⟩
  · cases d <;> simp [ord]
  · simp [hs1]
  · grind [Same]
  · rw [rep_mk, rep_mk, ptr_mk]
    refine ⟨hq, ?_, ?_, ?_, ⟨hp, ?_, ?_, ?_, rep_congr (s := s) ?_ hN,
      rep_reparent (s := s) hA' ?_ ?_ ?_ ?_⟩, rep_congr (s := s) ?_ hC⟩
    all_goals grind [Same, bit, Dir.flip_ne, Dir.ne_flip]

/-- The data after case 1. -/
theorem eraseRedSibling_aug {N A C : CTree ℕ} {p q : ℕ}
    (h : At s K (.mk d c N p (.mk d c' A q C))) (hA : A.color = .black) (hne : A ≠ .nil) :
    RotatedData cb s.aug d.flip p q A N (eraseRedSibling cb s d p q).1.aug := by
  obtain ⟨-, -, -, -, hN, -⟩ := rep_mk.mp (eraseRedSibling_at dummyCallbacks h hA hne).1.tree
  obtain ⟨-, -, hN', hA', -, -⟩ := rep_mk.mp hN
  refine ⟨(eraseRedSibling dummyCallbacks s d p q).1, rfl, ?_, hA', by rwa [Dir.flip_flip]⟩
  unfold eraseRedSibling State.rbSetParentColor
  simp [dummyCallbacks]

theorem eraseFlip_at {N S : CTree ℕ} {p : ℕ} (h : At s K (.mk d c N p S)) (hne : S ≠ .nil) :
    At (s.rbSetParentColor (ptr S) p RB_RED) K (.mk d c N p (S.paint .red)) := by
  obtain ⟨hp, hppc, hpd, hpf, hN, hS⟩ := rep_mk.mp h.tree
  have hnd := h.nodup
  simp only [Ctx.nodup_around, CTree.inorder_mk, nodup_ord, mem_ord, List.Disjoint] at hnd
  have hSm := ptr_mem (ptr_ne_zero hS hne)
  unfold State.rbSetParentColor
  refine ⟨ctxRep_congr (s := s) rfl ?_ (by simpa using h.ctx), rep_mk.mpr ⟨hp, ?_, ?_, ?_,
    rep_congr (s := s) ?_ hN, rep_root (s := s) hS ?_ ?_ ?_ ?_⟩, by simpa using h.nodup⟩
  all_goals grind [Same, bit]

theorem setBlack_at {t : CTree ℕ} (h : At s K t) (hne : t ≠ .nil) :
    At (s.rbSetBlack (ptr t)) K (t.paint .black) := by
  have hnd := h.nodup
  simp only [Ctx.nodup_around, List.Disjoint] at hnd
  have htm := ptr_mem (ptr_ne_zero h.tree hne)
  have hpc := rep_color h.tree hne
  unfold State.rbSetBlack
  rw [hpc, or_black]
  refine ⟨ctxRep_congr (s := s) rfl ?_ (by simpa using h.ctx), rep_root (s := s) h.tree hnd.1 ?_ ?_ ?_,
    by simpa using h.nodup⟩
  all_goals grind [Same]

theorem eraseOuter_at {N A C : CTree ℕ} {p q : ℕ} (h : At s K (.mk d c N p (.mk d c' A q C)))
    (hne : C ≠ .nil) :
    At (eraseOuter cb s d p q (ptr C)) K (.mk d c (.mk d .black N p A) q (C.paint .black)) := by
  obtain ⟨hp, hppc, hpd, hpf, hN, ht⟩ := rep_mk.mp h.tree
  obtain ⟨hq, hqpc, hqd, hqf, hA, hC⟩ := rep_mk.mp ht
  have hnd := h.nodup
  simp only [Ctx.nodup_around, CTree.inorder_mk, nodup_ord, mem_ord, not_or, List.Disjoint] at hnd
  have hCm := ptr_mem (ptr_ne_zero hC hne)
  have hAm := ptr_mem (t := A)
  have hApc := rep_reparent_word hA hq.2 p
  unfold eraseOuter State.rbSetParentColor
  simp only [hqd]
  set s1 := (((s.setChild d.flip p (ptr A)).setChild d q p).setPc (ptr C) (q ||| RB_BLACK)).adopt
    (ptr A) p with hs1
  have hp1 : s1.parentColor p = top K ||| bit c := by grind
  rw [rotateSetParents_eq (top_aligned h.ctx) hp1]
  refine At.augment (h.relink ptr_mk ptr_mk hp.1 ?_ ?_ ?_ ?_) _
  · cases d <;> simp [ord]
  · simp [hs1]
  · grind [Same]
  · rw [rep_mk, rep_mk, ptr_mk]
    refine ⟨hq, ?_, ?_, ?_, ⟨hp, ?_, ?_, ?_, rep_congr (s := s) ?_ hN,
      rep_reparent (s := s) hA ?_ ?_ ?_ ?_⟩, rep_root (s := s) hC ?_ ?_ ?_ ?_⟩
    all_goals grind [Same, bit, Dir.flip_ne, Dir.ne_flip]

/-- The data after case 4. -/
theorem eraseOuter_aug {N A C : CTree ℕ} {p q : ℕ} (h : At s K (.mk d c N p (.mk d c' A q C)))
    (hne : C ≠ .nil) :
    RotatedData cb s.aug d.flip p q A N (eraseOuter cb s d p q (ptr C)).aug := by
  obtain ⟨-, -, -, -, hN, -⟩ := rep_mk.mp (eraseOuter_at dummyCallbacks h hne).tree
  obtain ⟨-, -, hN', hA', -, -⟩ := rep_mk.mp hN
  refine ⟨eraseOuter dummyCallbacks s d p q (ptr C), rfl, ?_, hA', by rwa [Dir.flip_flip]⟩
  unfold eraseOuter State.rbSetParentColor
  simp [dummyCallbacks]

@[grind =] theorem parentColor_eraseInner (p q m x : ℕ) :
    (eraseInner cb s d p q m).parentColor x =
      if s.child d.flip m ≠ 0 ∧ x = s.child d.flip m then q ||| RB_BLACK
      else s.parentColor x := by
  unfold eraseInner
  simp

@[grind =] theorem child_eraseInner (p q m : ℕ) (d' : Dir) (x : ℕ) :
    (eraseInner cb s d p q m).child d' x = if d' = d.flip ∧ x = p then m
      else if d' = d.flip ∧ x = m then q
      else if d' = d ∧ x = q then s.child d.flip m else s.child d' x := by
  unfold eraseInner
  simp

@[simp, grind =] theorem root_eraseInner (p q m : ℕ) : (eraseInner cb s d p q m).root = s.root := by
  unfold eraseInner
  simp

/-- Cases 3 and 4 together; between them the tree is not well formed. -/
theorem eraseInner_at {N X Y C : CTree ℕ} {p q m : ℕ}
    (h : At s K (.mk d c N p (.mk d .black (.mk d .red X m Y) q C))) (hY : Y.color = .black) :
    At (eraseOuter cb (eraseInner cb s d p q m) d p m q) K
      (.mk d c (.mk d .black N p X) m (.mk d .black Y q C)) := by
  obtain ⟨hp, hppc, hpd, hpf, hN, ht⟩ := rep_mk.mp h.tree
  obtain ⟨hq, hqpc, hqd, hqf, ht, hC⟩ := rep_mk.mp ht
  obtain ⟨hm, hmpc, hmd, hmf, hX, hY'⟩ := rep_mk.mp ht
  have hnd := h.nodup
  simp only [Ctx.nodup_around, CTree.inorder_mk, nodup_ord, mem_ord, not_or, List.Disjoint] at hnd
  have hXm := ptr_mem (t := X)
  have hYm := ptr_mem (t := Y)
  have hXpc := rep_reparent_word hX hm.2 p
  have hmd' : (eraseInner cb s d p q m).child d m = ptr X := by
    grind [Dir.flip_ne, Dir.ne_flip]
  unfold eraseOuter State.rbSetParentColor
  simp only [hmd']
  set s1 := ((((eraseInner cb s d p q m).setChild d.flip p (ptr X)).setChild d m p).setPc q
    (m ||| RB_BLACK)).adopt (ptr X) p with hs1
  have hp1 : s1.parentColor p = top K ||| bit c := by grind
  rw [rotateSetParents_eq (top_aligned h.ctx) hp1]
  refine At.augment (h.relink ptr_mk ptr_mk hp.1 ?_ ?_ ?_ ?_) _
  · cases d <;> simp [ord]
  · simp [hs1]
  · grind [Same]
  · rw [rep_mk, rep_mk, rep_mk, ptr_mk, ptr_mk]
    refine ⟨hm, ?_, ?_, ?_, ⟨hp, ?_, ?_, ?_, rep_congr (s := s) ?_ hN,
      rep_reparent (s := s) hX ?_ ?_ ?_ ?_⟩, hq, ?_, ?_, ?_,
      rep_reparent (s := s) hY' ?_ ?_ ?_ ?_, rep_congr (s := s) ?_ hC⟩
    all_goals grind [Same, bit, Dir.flip_ne, Dir.ne_flip]

/-- The data after cases 3 and 4. -/
theorem eraseInner_aug {N X Y C : CTree ℕ} {p q m : ℕ}
    (h : At s K (.mk d c N p (.mk d .black (.mk d .red X m Y) q C))) (hY : Y.color = .black) :
    ∃ b, RotatedData cb s.aug d q m Y C b ∧ RotatedData cb b d.flip p m X N
      (eraseOuter cb (eraseInner cb s d p q m) d p m q).aug := by
  obtain ⟨-, -, -, -, hN, -⟩ := rep_mk.mp (eraseInner_at cb h hY).tree
  obtain ⟨-, -, hN', hX', -, -⟩ := rep_mk.mp hN
  obtain ⟨-, -, -, -, -, ht⟩ := rep_mk.mp h.tree
  obtain ⟨-, -, -, hqf, ht, -⟩ := rep_mk.mp ht
  obtain ⟨-, -, -, hmf, -, -⟩ := rep_mk.mp ht
  have hnd := h.nodup
  simp only [Ctx.nodup_around, CTree.inorder_mk, nodup_ord, mem_ord, not_or] at hnd
  have hqp : q ≠ p := fun h' => hnd.1.2.1.1 h'.symm
  have hqm : q ≠ m := hnd.1.2.2.2.1.1.1
  refine ⟨(eraseInner cb s d p q m).aug, ⟨eraseInner dummyCallbacks s d p q m, rfl, ?_, ?_, ?_⟩,
    eraseOuter dummyCallbacks (eraseInner cb s d p q m) d p m q, rfl, ?_, hX',
    by rw [Dir.flip_flip]; exact hN'⟩
  · unfold eraseInner
    simp [dummyCallbacks]
  · rw [child_eraseInner]; simp [hmf]
  · rw [child_eraseInner]; simp [hqp, hqm, hqf]
  · unfold eraseOuter State.rbSetParentColor
    simp [dummyCallbacks]

/-! ### One round -/

/-- **What a round leaves in the hole** of the context above `parent`, which expects the height
`n + 1`. -/
inductive Outcome (J : α → CTree ℕ → Prop) (K : Ctx ℕ) (L : List ℕ) (n : ℕ) (col : Color) :
    State α × Option ℕ → Prop
  | done {s : State α} {t : CTree ℕ} (mem : At s K t) (inorder : t.inorder = L)
      (noRedRed : t.NoRedRed) (height : t.Height (n + 1)) (color : t.color = col ∨ t.color = .black)
      (data : J s.aug (K.fill t)) : Outcome J K L n col (s, none)
  | up {s : State α} {t : CTree ℕ} (mem : At s K t) (inorder : t.inorder = L)
      (noRedRed : t.NoRedRed) (height : t.Height n) (color : t.color = .black)
      (was_black : col = .black) (data : J s.aug (K.fill t)) : Outcome J K L n col (s, some (ptr t))

/-- The cases after the first, at a black sibling. -/
theorem eraseBlackSibling_spec (hcb : Upkeep cb J) {f : Frame ℕ} {N : CTree ℕ} {k : ℕ}
    (h : At s (f :: K) N) (hJ : J s.aug (Ctx.fill (f :: K) N))
    (hNr : N.NoRedRed) (hNh : N.Height k) (hS : f.sib.color = .black)
    (hSr : f.sib.NoRedRed) (hSh : f.sib.Height (k + 1)) :
    Outcome J K (ord f.dir N.inorder f.ptr f.sib.inorder) (k + f.color.weight) f.color
      (eraseBlackSibling cb s f.dir f.ptr (ptr f.sib)) := by
  obtain ⟨d, c, p, S⟩ := f
  simp only at *
  obtain ⟨c', A, q, C, rfl⟩ := CTree.exists_mk d (CTree.ne_nil_of_height hSh)
  rw [CTree.color_mk] at hS
  subst hS
  obtain ⟨-, hAr, hCr⟩ := CTree.noRedRed_mk.mp hSr
  obtain ⟨k', hk', hAh, hCh⟩ := CTree.height_mk.mp hSh
  obtain rfl : k = k' := Nat.succ.inj hk'
  have h1 := at_cons.mp h
  simp only at h1
  obtain ⟨hp, hppc, -, -, hN', ht⟩ := rep_mk.mp h1.tree
  obtain ⟨hq, -, hqd, hqf, hA, hC⟩ := rep_mk.mp ht
  unfold eraseBlackSibling
  simp only [ptr_mk, hqd, hqf, black_test hC hq.2, black_test hA hq.2]
  by_cases hCb : C.color = .black
  · rw [if_pos hCb]
    by_cases hAb : A.color = .black
    · -- sibling colour flip
      rw [if_pos hAb]
      have h2 := eraseFlip_at h1 (CTree.ne_nil_of_height hSh)
      rw [ptr_mk, CTree.mk_paint] at h2
      have hJ2 := hcb.paint_other .red hJ
      rw [CTree.mk_paint] at hJ2
      have hpm : p ≠ q := by
        have hnd := h1.nodup
        simp only [Ctx.nodup_around, CTree.inorder_mk, nodup_ord, mem_ord, not_or] at hnd
        exact hnd.1.2.1.1
      have hred : (s.rbSetParentColor q p RB_RED).rbIsRed p = decide (c = .red) := by
        unfold State.rbIsRed State.rbIsBlack
        rw [(rep_mk.mp h2.tree).2.1, pcIsBlack_or (top_aligned h2.ctx)]
        cases c <;> rfl
      rw [hred]
      cases c with
      | red =>
        have h3 := setBlack_at h2 (by cases d <;> simp [CTree.mk])
        rw [ptr_mk, CTree.mk_paint] at h3
        refine Outcome.done h3 (by simp) (by simp [hNr, hAr, hCr, hAb, hCb]) ?_
          (Or.inr CTree.color_mk) (hcb.paint_root .black hJ2)
        simp only [CTree.height_mk, Color.weight]
        exact ⟨k, rfl, hNh, k, rfl, hAh, hCh⟩
      | black =>
        have hheight : (CTree.mk d .black N p (.mk d .red A q C)).Height (k + 1) := by
          simp only [CTree.height_mk, Color.weight]
          exact ⟨k, rfl, hNh, k, rfl, hAh, hCh⟩
        have hup := Outcome.up h2 rfl (by simp [hNr, hAr, hCr, hAb, hCb]) hheight CTree.color_mk rfl
          hJ2
        rw [ptr_mk] at hup
        simpa [Color.weight] using hup
    · rw [if_neg hAb]
      have hAred : A.color = .red := by cases hc : A.color <;> simp_all
      obtain ⟨ca, X, m, Y, rfl⟩ := CTree.exists_mk d (CTree.ne_nil_of_red hAred)
      rw [CTree.color_mk] at hAred
      subst hAred
      obtain ⟨hXY, hXr, hYr⟩ := CTree.noRedRed_mk.mp hAr
      obtain ⟨k', hk', hXh, hYh⟩ := CTree.height_mk.mp hAh
      obtain rfl : k = k' := hk'
      obtain ⟨hXb, hYb⟩ := hXY rfl
      rw [ptr_mk]
      obtain ⟨b, hb1, hb2⟩ := eraseInner_aug cb h1 hYb
      refine Outcome.done (eraseInner_at cb h1 hYb) ?_ ?_ ?_ (Or.inl CTree.color_mk)
        (hcb.rotate_inner_flip (proper_of_at h1) hb1 hb2 hJ)
      · cases d <;> simp [ord]
      · simp [hNr, hXr, hYr, hCr]
      · simp only [CTree.height_mk, Color.weight]
        exact ⟨k + 1, by omega, ⟨k, rfl, hNh, hXh⟩, k, rfl, hYh, hCh⟩
  · rw [if_neg hCb]
    have hCred : C.color = .red := by cases hc : C.color <;> simp_all
    have hCne := CTree.ne_nil_of_red hCred
    obtain ⟨cc, X, m, Y, rfl⟩ := CTree.exists_mk d hCne
    rw [CTree.color_mk] at hCred
    subst hCred
    obtain ⟨-, hXr, hYr⟩ := CTree.noRedRed_mk.mp hCr
    obtain ⟨k', hk', hXh, hYh⟩ := CTree.height_mk.mp hCh
    obtain rfl : k = k' := hk'
    have h2 := eraseOuter_at cb h1 hCne
    have hJ2 : J _ (K.fill (.mk d c (.mk d .black N p A) q (.mk d .red X m Y))) :=
      hcb.rotate_flip (proper_of_at h1) (eraseOuter_aug cb h1 hCne) hJ
    replace hJ2 := hcb.paint_other .black hJ2
    rw [CTree.mk_paint] at h2 hJ2
    refine Outcome.done h2 ?_ ?_ ?_ (Or.inl CTree.color_mk) hJ2
    · cases d <;> simp [ord]
    · simp [hNr, hAr, hXr, hYr]
    · simp only [CTree.height_mk, Color.weight]
      exact ⟨k + 1, by omega, ⟨k, rfl, hNh, hAh⟩, k, rfl, hXh, hYh⟩

/-! ### The loop -/

/-- A round that mends the context leaves a red-black tree. -/
theorem Outcome.redBlack {L : List ℕ} {n : ℕ} {col : Color} {s' : State α}
    (h : Outcome J K L n col (s', none)) (hK : K.Height (n + 1)) (hacc : K.Accepts col) :
    ∃ t, TreeOf s' t ∧ t.RedBlack ∧ t.inorder = K.around L ∧ J s'.aug t := by
  cases h with
  | @done _ t mem inorder noRedRed height color data =>
    refine ⟨_, at_iff.mp mem, Ctx.redBlack_fill noRedRed height hK ?_, ?_, data⟩
    · rcases color with hc | hc
      · rw [hc]; exact hacc
      · rw [hc]; exact hacc.black
    · rw [Ctx.inorder_fill, inorder]

/-- The side the loop works on is the side of the short subtree. -/
theorem side_eq {f : Frame ℕ} {N : CTree ℕ} {k : ℕ} (h : At s (f :: K) N)
    (hS : f.sib.Height (k + 1)) :
    (if ptr N ≠ s.child .right f.ptr then Dir.left else Dir.right) = f.dir := by
  obtain ⟨-, -, hc1, hc2, hsib, -⟩ := h.ctx
  have hS0 := ptr_ne_zero hsib (CTree.ne_nil_of_height hS)
  cases hd : f.dir with
  | left =>
    rw [hd] at hc2
    have hne : ptr N ≠ ptr f.sib := by
      intro heq
      have hnd := (at_cons.mp h).nodup
      simp only [Ctx.nodup_around, CTree.inorder_mk, nodup_ord] at hnd
      exact hnd.1.2.2.2.2 (ptr_mem (heq ▸ hS0)) (heq ▸ ptr_mem hS0)
    rw [show Dir.right = Dir.left.flip from rfl, hc2, if_pos hne]
  | right =>
    rw [hd] at hc1
    rw [hc1, if_neg (by simp)]

/-- **One round.** With a red sibling it first rotates, which leaves a red parent, so the round that
follows ends the loop. -/
theorem eraseColorRound_spec (hcb : Upkeep cb J) {f : Frame ℕ} {N : CTree ℕ} {k : ℕ}
    (h : At s (f :: K) N) (hJ : J s.aug (Ctx.fill (f :: K) N))
    (hNr : N.NoRedRed) (hNh : N.Height k) (hK : Ctx.Height (f :: K) (k + 1))
    (hacc : Ctx.Accepts (f :: K) .black) :
    (∃ s' t, eraseColorRound cb s f.dir f.ptr = (s', none) ∧ TreeOf s' t ∧ t.RedBlack ∧
      t.inorder = Ctx.around (f :: K) N.inorder ∧ J s'.aug t) ∨
    (∃ s' t, eraseColorRound cb s f.dir f.ptr = (s', some (ptr t)) ∧ At s' K t ∧
      J s'.aug (K.fill t) ∧
      t.inorder = ord f.dir N.inorder f.ptr f.sib.inorder ∧ t.NoRedRed ∧ t.Height (k + 1) ∧
      t.color = .black ∧ K.Height (k + 2) ∧ K.Accepts .black) := by
  obtain ⟨hSh, hKh⟩ := hK
  obtain ⟨hSr, hSc, hKacc⟩ := hacc
  obtain ⟨hp, -, -, hc2, hsib, -⟩ := h.ctx
  have hred : s.rbIsRed (ptr f.sib) = decide (f.sib.color = .red) := by
    unfold State.rbIsRed State.rbIsBlack
    rw [rep_color hsib (CTree.ne_nil_of_height hSh), pcIsBlack_or hp.2]
    cases f.sib.color <;> rfl
  unfold eraseColorRound
  simp only [hc2, hred, decide_eq_true_eq]
  by_cases hS : f.sib.color = .red
  · left
    rw [if_pos hS]
    have hf : f.color = .black := by
      cases hc : f.color with
      | black => rfl
      | red => have := (hSc hc).2; rw [hS] at this; cases this
    obtain ⟨c', A, q, C, hsib'⟩ := CTree.exists_mk f.dir (CTree.ne_nil_of_red hS)
    rw [hsib', CTree.color_mk] at hS
    subst hS
    rw [hsib'] at hSr hSh
    obtain ⟨hAC, hAr, hCr⟩ := CTree.noRedRed_mk.mp hSr
    obtain ⟨k', hk', hAh, hCh⟩ := CTree.height_mk.mp hSh
    obtain rfl : k + 1 = k' := hk'
    have h1 := at_cons.mp h
    rw [hsib', hf] at h1
    have hJ1 : J s.aug (K.fill (.mk f.dir .black N f.ptr (.mk f.dir .red A q C))) := by
      rw [← hsib', ← hf]; exact hJ
    obtain ⟨h2, htmp⟩ := eraseRedSibling_at cb h1 (hAC rfl).1 (CTree.ne_nil_of_height hAh)
    have hJ2 : J _ (K.fill (.mk f.dir .black (.mk f.dir .red N f.ptr A) q C)) :=
      hcb.rotate_flip (proper_of_at h1)
        (eraseRedSibling_aug cb h1 (hAC rfl).1 (CTree.ne_nil_of_height hAh)) hJ1
    rw [hsib', ptr_mk, htmp]
    -- the short subtree below the red parent, seen again as a context
    have h3 := at_cons (f := ⟨f.dir, .red, f.ptr, A⟩).mpr (at_cons (f := ⟨f.dir, .black, q, C⟩).mpr h2)
    have hout := eraseBlackSibling_spec cb hcb h3 hJ2 hNr hNh (hAC rfl).1 hAr hAh
    rw [hf] at hKacc hKh
    generalize eraseBlackSibling cb _ f.dir f.ptr (ptr A) = res at hout
    have hnone : res.2 = none := by
      cases hout with
      | done => rfl
      | up => contradiction
    obtain ⟨s', o⟩ := res
    obtain rfl : o = none := hnone
    obtain ⟨t, ht, hrb, hin, hJ'⟩ := hout.redBlack (by exact ⟨hCh, hKh⟩) ⟨hCr, by simp [(hAC rfl).2], hKacc⟩
    refine ⟨s', t, rfl, ht, hrb, ?_, hJ'⟩
    rw [hin]
    simp only [Ctx.around, hsib', CTree.inorder_mk]
    congr 1
    cases f.dir <;> simp [ord]
  · rw [if_neg hS]
    have hS : f.sib.color = .black := by cases hc : f.sib.color <;> simp_all
    have hout := eraseBlackSibling_spec cb hcb h hJ hNr hNh hS hSr hSh
    generalize eraseBlackSibling cb s f.dir f.ptr (ptr f.sib) = res at hout
    rw [show k + 1 + f.color.weight = k + f.color.weight + 1 by omega] at hKh
    cases hout with
    | @done s' t mem inorder noRedRed height color data =>
      left
      obtain ⟨t', ht', hrb, hin, hJ'⟩ :=
        (Outcome.done mem inorder noRedRed height color data).redBlack hKh hKacc
      exact ⟨s', t', rfl, ht', hrb, hin, hJ'⟩
    | @up s' t mem inorder noRedRed height color was_black data =>
      right
      rw [was_black] at hKh hKacc height
      exact ⟨s', t, rfl, mem, data, inorder, noRedRed, height, color, hKh, hKacc⟩

/-- **The rebalancing loop.** -/
theorem rbEraseColorLoop_spec (hcb : Upkeep cb J) : ∀ (n : ℕ) (f : Frame ℕ) (K : Ctx ℕ)
    (s : State α) (N : CTree ℕ) (k : ℕ), K.length < n → At s (f :: K) N →
    J s.aug (Ctx.fill (f :: K) N) → N.NoRedRed → N.Height k →
    Ctx.Height (f :: K) (k + 1) → Ctx.Accepts (f :: K) .black →
    ∃ s' t, rbEraseColorLoop cb n s (ptr N) f.ptr = some s' ∧ TreeOf s' t ∧ t.RedBlack ∧
      t.inorder = Ctx.around (f :: K) N.inorder ∧ J s'.aug t
  | n + 1, f, K, s, N, k, hn, h, hJ, hNr, hNh, hK, hacc => by
    rw [rbEraseColorLoop]
    simp only [side_eq h hK.1]
    rcases eraseColorRound_spec cb hcb h hJ hNr hNh hK hacc with
      ⟨s', t, hr, ht, hrb, hin, hJ'⟩ | ⟨s', t, hr, hat, hJ', hin, htr, hth, htc, hK', hacc'⟩
    · rw [hr]
      exact ⟨s', t, rfl, ht, hrb, hin, hJ'⟩
    · rw [hr]
      simp only
      have hpar : s'.rbParent (ptr t) = top K := by
        unfold State.rbParent
        rw [rep_color hat.tree (CTree.ne_nil_of_height hth), pcParent_or (top_aligned hat.ctx)]
      rw [hpar]
      cases K with
      | nil =>
        refine ⟨s', t, by rw [top_nil]; rfl, at_iff.mp hat, ⟨htc, htr, _, hth⟩, hin, hJ'⟩
      | cons g K =>
        rw [top_cons, if_pos hat.ctx.1.1]
        obtain ⟨s'', t', hs, ht', hrb, hin', hJ''⟩ := rbEraseColorLoop_spec hcb n g K s' t (k + 1)
          (by simp only [List.length_cons] at hn; omega) hat hJ' htr hth hK' hacc'
        refine ⟨s'', t', hs, ht', hrb, ?_, hJ''⟩
        rw [hin', hin]
        rfl

end HardStack.Rbtree.EraseColor
