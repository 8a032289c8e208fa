import HardStack.Rbtree.Callbacks

/-! # Insertion keeps the tree red-black

The loop of `__rb_insert` climbs the context of the red node `node`. Its invariant: the tree below
`node` and the context fit in height, and the context would accept a black node in the hole. The
colour flip moves the hole two steps up; the rotations end with a black node in the hole. What the
callbacks do to the data goes along as a rule of `Callbacks`. -/

namespace HardStack.Rbtree.Insert

open HardStack.Lib.RbTree HardStack.Rbtree.Model HardStack.Rbtree.Layout
open HardStack.Rbtree.Callbacks

variable {α : Type} {s : State α} {K : Ctx ℕ} (cb : AugmentCallbacks α) {d : Dir} {c : Color}

/-! ### The three cases in memory -/

theorem insertOuter_at {N B U : CTree ℕ} {p g : ℕ}
    (h : At s K (.mk d c (.mk d .red N p B) g U)) (hB : B.color = .black) :
    At (insertOuter cb s d p g (ptr B)) K (.mk d c N p (.mk d .red B g U)) := by
  obtain ⟨hg, hgpc, hgd, hgf, ht, hU⟩ := rep_mk.mp h.tree
  obtain ⟨hp, hppc, hpd, hpf, hN, hB'⟩ := rep_mk.mp ht
  have hnd := h.nodup
  simp only [Ctx.nodup_around, CTree.inorder_mk, nodup_ord, mem_ord, not_or, List.Disjoint] at hnd
  have hBm := ptr_mem (t := B)
  set s1 := ((s.setChild d g (ptr B)).setChild d.flip p g).adoptBlack (ptr B) g with hs1
  have hg1 : s1.parentColor g = top K ||| bit c := by grind
  unfold insertOuter
  simp only
  rw [← hs1, rotateSetParents_eq (top_aligned h.ctx) hg1]
  refine At.augment (h.relink ptr_mk ptr_mk hg.1 ?_ ?_ ?_ ?_) _
  · cases d <;> simp [ord]
  · simp [hs1]
  · grind [Same]
  · rw [rep_mk, rep_mk, ptr_mk]
    refine ⟨hp, ?_, ?_, ?_, rep_congr (s := s) ?_ hN, hg, ?_, ?_, ?_,
      rep_reparent (s := s) hB' ?_ ?_ ?_ ?_, rep_congr (s := s) ?_ hU⟩
    all_goals grind [Same, bit, Dir.flip_ne, Dir.ne_flip]

/-- The data after case 3. -/
theorem insertOuter_aug {N B U : CTree ℕ} {p g : ℕ}
    (h : At s K (.mk d c (.mk d .red N p B) g U)) (hB : B.color = .black) :
    RotatedData cb s.aug d g p B U (insertOuter cb s d p g (ptr B)).aug := by
  obtain ⟨-, -, -, -, -, hU⟩ := rep_mk.mp (insertOuter_at dummyCallbacks h hB).tree
  obtain ⟨-, -, hB', hU', -, -⟩ := rep_mk.mp hU
  refine ⟨insertOuter dummyCallbacks s d p g (ptr B), rfl, ?_, hB', hU'⟩
  unfold insertOuter
  simp [dummyCallbacks]

@[grind =] theorem parentColor_insertInner (n p x : ℕ) :
    (insertInner cb s d n p).parentColor x = if x = p then n ||| RB_RED
      else if s.child d n ≠ 0 ∧ x = s.child d n then p ||| RB_BLACK else s.parentColor x := by
  unfold insertInner State.rbSetParentColor
  simp

@[grind =] theorem child_insertInner (n p : ℕ) (d' : Dir) (x : ℕ) :
    (insertInner cb s d n p).child d' x = if d' = d ∧ x = n then p
      else if d' = d.flip ∧ x = p then s.child d n else s.child d' x := by
  unfold insertInner State.rbSetParentColor
  simp

@[simp, grind =] theorem root_insertInner (n p : ℕ) : (insertInner cb s d n p).root = s.root := by
  unfold insertInner State.rbSetParentColor
  simp

theorem insertInner_at {X Y A U : CTree ℕ} {n p g : ℕ}
    (h : At s K (.mk d c (.mk d .red A p (.mk d .red X n Y)) g U)) (hX : X.color = .black)
    (hY : Y.color = .black) :
    At (insertOuter cb (insertInner cb s d n p) d n g (ptr Y)) K
      (.mk d c (.mk d .red A p X) n (.mk d .red Y g U)) := by
  obtain ⟨hg, hgpc, hgd, hgf, ht, hU⟩ := rep_mk.mp h.tree
  obtain ⟨hp, hppc, hpd, hpf, hA, ht⟩ := rep_mk.mp ht
  obtain ⟨hn, hnpc, hnd', hnf, hX', hY'⟩ := rep_mk.mp ht
  have hnd := h.nodup
  simp only [Ctx.nodup_around, CTree.inorder_mk, nodup_ord, mem_ord, not_or, List.Disjoint] at hnd
  have hXm := ptr_mem (t := X)
  have hYm := ptr_mem (t := Y)
  set s1 := (((insertInner cb s d n p).setChild d g (ptr Y)).setChild d.flip n g).adoptBlack
    (ptr Y) g with hs1
  have hg1 : s1.parentColor g = top K ||| bit c := by grind
  unfold insertOuter
  simp only
  rw [← hs1, rotateSetParents_eq (top_aligned h.ctx) hg1]
  refine At.augment (h.relink ptr_mk ptr_mk hg.1 ?_ ?_ ?_ ?_) _
  · cases d <;> simp [ord]
  · simp [hs1]
  · grind [Same]
  · rw [rep_mk, rep_mk, rep_mk, ptr_mk, ptr_mk]
    refine ⟨hn, ?_, ?_, ?_, ⟨hp, ?_, ?_, ?_, rep_congr (s := s) ?_ hA,
      rep_reparent (s := s) hX' ?_ ?_ ?_ ?_⟩, hg, ?_, ?_, ?_,
      rep_reparent (s := s) hY' ?_ ?_ ?_ ?_, rep_congr (s := s) ?_ hU⟩
    all_goals grind [Same, bit, Dir.flip_ne, Dir.ne_flip]

/-- The data after cases 2 and 3. -/
theorem insertInner_aug {X Y A U : CTree ℕ} {n p g : ℕ}
    (h : At s K (.mk d c (.mk d .red A p (.mk d .red X n Y)) g U)) (hX : X.color = .black)
    (hY : Y.color = .black) :
    ∃ b, RotatedData cb s.aug d.flip p n X A b ∧
      RotatedData cb b d g n Y U (insertOuter cb (insertInner cb s d n p) d n g (ptr Y)).aug := by
  obtain ⟨-, -, -, -, hA, hU⟩ := rep_mk.mp (insertInner_at cb h hX hY).tree
  obtain ⟨-, -, hY', hU', -, -⟩ := rep_mk.mp hU
  obtain ⟨-, -, -, -, ht, -⟩ := rep_mk.mp h.tree
  obtain ⟨-, -, hpd, -, -, ht⟩ := rep_mk.mp ht
  obtain ⟨-, -, hnd', -, -, -⟩ := rep_mk.mp ht
  have hnp : p ≠ n := by
    have hnd := h.nodup
    simp only [Ctx.nodup_around, CTree.inorder_mk, nodup_ord, mem_ord, not_or] at hnd
    exact hnd.1.2.2.1.2.1.1
  refine ⟨(insertInner cb s d n p).aug, ⟨insertInner dummyCallbacks s d n p, rfl, ?_, ?_, ?_⟩,
    insertOuter dummyCallbacks (insertInner cb s d n p) d n g (ptr Y), rfl, ?_, ?_, ?_⟩
  · unfold insertInner State.rbSetParentColor
    simp [dummyCallbacks]
  · rw [child_insertInner]; simp [hnd']
  · rw [child_insertInner]; simp [hnp, hpd]
  · unfold insertOuter
    simp [dummyCallbacks]
  · exact hY'
  · exact hU'

theorem insertFlip_at {P U : CTree ℕ} {g : ℕ} (h : At s K (.mk d c P g U)) (hP : P ≠ .nil)
    (hU : U ≠ .nil) :
    At (insertFlip s (ptr P) g (ptr U)).1 K (.mk d .red (P.paint .black) g (U.paint .black)) ∧
      (insertFlip s (ptr P) g (ptr U)).2 = top K := by
  obtain ⟨hg, hgpc, hgd, hgf, hP', hU'⟩ := rep_mk.mp h.tree
  have hnd := h.nodup
  simp only [Ctx.nodup_around, CTree.inorder_mk, nodup_ord, mem_ord, List.Disjoint] at hnd
  have hPm := ptr_mem (ptr_ne_zero hP' hP)
  have hUm := ptr_mem (ptr_ne_zero hU' hU)
  set s1 := (s.setPc (ptr U) (g ||| RB_BLACK)).setPc (ptr P) (g ||| RB_BLACK) with hs1
  have hpar : s1.rbParent g = top K := by
    have hg1 : s1.parentColor g = top K ||| bit c := by grind
    rw [State.rbParent, hg1, pcParent_or (top_aligned h.ctx)]
  have heq : insertFlip s (ptr P) g (ptr U) = (s1.setPc g (top K ||| RB_RED), top K) := by
    unfold insertFlip State.rbSetParentColor
    simp only [← hs1, hpar]
  rw [heq]
  have hctx := h.ctx
  rw [ptr_mk] at hctx
  refine ⟨⟨ctxRep_congr (s := s) rfl ?_ (by rwa [ptr_mk]), rep_mk.mpr ⟨hg, ?_, ?_, ?_,
    rep_root (s := s) hP' ?_ ?_ ?_ ?_, rep_root (s := s) hU' ?_ ?_ ?_ ?_⟩,
    by simpa using h.nodup⟩, rfl⟩
  all_goals grind [Same, bit]

/-- The node of the loop is the root of the whole tree. -/
theorem paintRoot {t : CTree ℕ} (h : TreeOf s t) :
    TreeOf (s.rbSetParentColor (ptr t) 0 RB_BLACK) (t.paint .black) := by
  unfold State.rbSetParentColor
  refine ⟨by simp [h.root], rep_root h.tree h.nodup ?_ ?_ ?_, by simpa using h.nodup⟩
  · intro x _ hx; simp [hx]
  · intro x _ d; simp
  · intro _; simp [bit]

/-! ### The rotations -/

/-- What the fix-up ends with at a black grandparent `g`: a black tree over the same nodes, of the
same height, where `parent` now points to its root. -/
structure Rotated (s' : State α) (parent : ℕ) (K : Ctx ℕ) (L : List ℕ) (n : ℕ) (t : CTree ℕ) :
    Prop where
  mem : At s' K t
  root : ptr t = parent
  inorder : t.inorder = L
  black : t.color = .black
  noRedRed : t.NoRedRed
  height : t.Height n

/-- **Cases 2 and 3.** -/
theorem insertRotate_spec {I : α → Ctx ℕ → CTree ℕ → Prop} {Q : α → CTree ℕ → Prop}
    (hcb : InsertRule cb I Q) {f g : Frame ℕ} {T : CTree ℕ} {n : ℕ}
    (h : At s (f :: g :: K) T) (hI : I s.aug (f :: g :: K) T) (hT : T.color = .red) (hTr : T.NoRedRed) (hTh : T.Height n)
    (hK : Ctx.Height (f :: g :: K) n) (hf : f.color = .red) (hg : g.color = .black)
    (hfs : f.sib.NoRedRed) (hfb : f.sib.color = .black) (hgs : g.sib.NoRedRed)
    (hgb : g.sib.color = .black) :
    ∃ t, Rotated (insertRotate cb s g.dir (ptr T) f.ptr g.ptr).1
      (insertRotate cb s g.dir (ptr T) f.ptr g.ptr).2 K
      (ord g.dir (ord f.dir T.inorder f.ptr f.sib.inorder) g.ptr g.sib.inorder) (n + 1) t ∧
      Q (insertRotate cb s g.dir (ptr T) f.ptr g.ptr).1.aug (K.fill t) := by
  obtain ⟨fd, fc, p, fs⟩ := f
  obtain ⟨gd, gc, g, gs⟩ := g
  simp only at *
  subst hf hg
  obtain ⟨hh1, hh2, -⟩ := hK
  simp only [Color.weight, add_zero] at hh1 hh2
  have h1 := at_cons.mp h
  have h2 := at_cons.mp h1
  simp only at h1 h2
  obtain ⟨hp, -, hc1, hc2, hT', hfs'⟩ := rep_mk.mp h1.tree
  have hTm := ptr_mem (ptr_ne_zero hT' (CTree.ne_nil_of_red hT))
  unfold insertRotate
  simp only
  by_cases hd : fd = gd
  · -- the node is the outer child
    subst hd
    have hne : ptr T ≠ s.child fd.flip p := by
      rw [hc2]
      intro heq
      have hnd := h1.nodup
      simp only [Ctx.nodup_around, CTree.inorder_mk, nodup_ord] at hnd
      have h0 : ptr fs ≠ 0 := heq ▸ ptr_ne_zero hT' (CTree.ne_nil_of_red hT)
      exact hnd.1.2.2.2.2 hTm (heq ▸ ptr_mem h0)
    rw [if_neg hne, hc2]
    refine ⟨_, ⟨insertOuter_at cb h2 hfb, ptr_mk, ?_, CTree.color_mk, ?_, ?_⟩,
      hcb.outer hgb (proper_of_at h) (insertOuter_aug cb h2 hfb) hI⟩
    · cases fd <;> simp [ord]
    · simp [hTr, hfs, hgs, hfb, hgb]
    · simp only [CTree.height_mk, Color.weight]
      exact ⟨n, rfl, hTh, n, rfl, hh1, hh2⟩
  · -- the node is the inner child
    obtain rfl : fd = gd.flip := by cases fd <;> cases gd <;> simp_all [Dir.flip]
    rw [if_pos hc1.symm]
    obtain ⟨c, X, m, Y, rfl⟩ := CTree.exists_mk gd (CTree.ne_nil_of_red hT)
    simp only [CTree.color_mk] at hT
    subst hT
    obtain ⟨hXY, hX, hY⟩ := CTree.noRedRed_mk.mp hTr
    obtain ⟨m', hm', hXh, hYh⟩ := CTree.height_mk.mp hTh
    obtain rfl : n = m' := hm'
    have h3 : At s K (.mk gd .black (.mk gd .red fs p (.mk gd .red X m Y)) g gs) := by
      have hswap : ∀ a b : CTree ℕ, CTree.mk gd.flip .red a p b = .mk gd .red b p a := by
        intro a b; cases gd <;> rfl
      rwa [hswap] at h2
    have hchild : (insertInner cb s gd m p).child gd.flip m = ptr Y := by
      obtain ⟨-, -, -, hmY, -, -⟩ := rep_mk.mp hT'
      have hpm : m ≠ p := by
        have hnd := h1.nodup
        simp only [Ctx.nodup_around, CTree.inorder_mk, nodup_ord, mem_ord] at hnd
        rintro rfl
        exact hnd.1.1 (Or.inl rfl)
      rw [child_insertInner cb]
      simp [hpm, hmY]
    rw [ptr_mk, hchild]
    obtain ⟨b, hb1, hb2⟩ := insertInner_aug cb h3 (hXY rfl).1 (hXY rfl).2
    refine ⟨_, ⟨insertInner_at cb h3 (hXY rfl).1 (hXY rfl).2, ptr_mk, ?_, CTree.color_mk, ?_, ?_⟩,
      hcb.inner hgb (proper_of_at h) hb1 hb2 hI⟩
    · cases gd <;> simp [ord, Dir.flip]
    · simp [hX, hY, hfs, hgs, hfb, hgb, hXY]
    · simp only [CTree.height_mk, Color.weight]
      exact ⟨n, rfl, ⟨n, rfl, hh1, hXh⟩, n, rfl, hYh, hh2⟩

/-! ### The loop -/

/-- One round at a red parent `f` with black grandparent `g`, on either side. -/
theorem rbInsertLoop_red {f g : Frame ℕ} {T : CTree ℕ} (n : ℕ) (h : At s (f :: g :: K) T)
    (hf : f.color = .red) :
    rbInsertLoop cb (n + 1) s (ptr T) f.ptr =
      if g.sib.color = .red then
        rbInsertLoop cb n (insertFlip s f.ptr g.ptr (ptr g.sib)).1 g.ptr
          (insertFlip s f.ptr g.ptr (ptr g.sib)).2
      else match g.dir with
        | .left => some (insertRotate cb s .left (ptr T) f.ptr g.ptr).1
        | .right => rbInsertLoop cb n (insertRotate cb s .right (ptr T) f.ptr g.ptr).1 (ptr T)
            (insertRotate cb s .right (ptr T) f.ptr g.ptr).2 := by
  obtain ⟨hpf, hpcf, -, -, -, hk⟩ := h.ctx
  obtain ⟨hpg, -, hcg, hcs, hsib, -⟩ := hk
  have hblack : s.rbIsBlack f.ptr = false := by rw [isBlack_top h.ctx, hf]; rfl
  have hgp : s.rbRedParent f.ptr = g.ptr := by
    unfold State.rbRedParent
    rw [hpcf, hf]
    simp [bit, RB_RED]
  have htest := red_test hsib hpg.2
  -- the parent is a child of `g` on the side `g.dir` only
  have hne : f.ptr ≠ ptr g.sib := by
    intro heq
    have hnd := (at_cons.mp (at_cons.mp h)).nodup
    simp only [Ctx.nodup_around, CTree.inorder_mk, nodup_ord] at hnd
    refine hnd.1.2.2.2.2 (mem_ord.mpr (Or.inl rfl)) ?_
    rw [heq]; exact ptr_mem (heq ▸ hpf.1)
  rw [rbInsertLoop, if_neg hpf.1, hblack]
  simp only [Bool.false_eq_true, if_false, hgp]
  cases hd : g.dir with
  | left =>
    rw [hd] at hcs
    simp only [Dir.flip] at hcs
    rw [hcs, if_pos hne]
    simp only [htest]
  | right =>
    rw [hd] at hcs hcg
    simp only [Dir.flip] at hcs
    rw [hcs, hcg]
    simp only [ne_eq, not_true_eq_false, if_false]
    have htest' : (¬ ptr g.sib = 0 ∧ s.rbIsRed (ptr g.sib) = true) ↔ g.sib.color = .red := htest
    simp only [htest']

/-- **The insertion loop.** -/
theorem rbInsertLoop_spec {I : α → Ctx ℕ → CTree ℕ → Prop} {Q : α → CTree ℕ → Prop}
    (hcb : InsertRule cb I Q) : ∀ (n : ℕ) (K : Ctx ℕ) (s : State α) (T : CTree ℕ) (k : ℕ),
    K.length + 1 < n → At s K T → T.color = .red → T.NoRedRed → T.Height k → K.Height k →
    K.Accepts .black → I s.aug K T →
    ∃ s' t, rbInsertLoop cb n s (ptr T) (top K) = some s' ∧ TreeOf s' t ∧
      t.RedBlack ∧ t.inorder = K.around T.inorder ∧ Q s'.aug t
  | n + 1, [], s, T, k, _, h, hT, hTr, hTh, _, _, hI => by
    have hne := CTree.ne_nil_of_red hT
    refine ⟨_, _, by rw [top_nil, rbInsertLoop, if_pos rfl]; rfl, paintRoot (at_iff.mp h), ?_,
      CTree.inorder_paint, hcb.root hI⟩
    obtain ⟨c, a, p, b, rfl⟩ := CTree.exists_mk .left hne
    obtain ⟨m, -, ha, hb⟩ := CTree.height_mk.mp hTh
    obtain ⟨-, har, hbr⟩ := CTree.noRedRed_mk.mp hTr
    rw [Ctx.fill, CTree.mk_paint]
    exact ⟨CTree.color_mk, by simp [har, hbr], m + 1, CTree.height_mk.mpr ⟨m, rfl, ha, hb⟩⟩
  | n + 1, f :: K, s, T, k, hn, h, hT, hTr, hTh, hK, hacc, hI => by
    by_cases hf : f.color = .black
    · refine ⟨s, _, ?_, at_iff.mp h, Ctx.redBlack_fill hTr hTh hK ?_, Ctx.inorder_fill _ _,
        hcb.black hf hI⟩
      · rw [top_cons, rbInsertLoop, if_neg h.ctx.1.1, isBlack_top h.ctx, hf]; rfl
      · exact hacc.of_black hf _
    · have hf : f.color = .red := by cases hc : f.color <;> simp_all
      obtain ⟨hfs, hfc, hacc⟩ := hacc
      rw [hf] at hacc
      obtain ⟨g, K', rfl, hg⟩ := hacc.parent_black
      obtain ⟨hgs, -, hacc'⟩ := hacc
      have hfb := (hfc hf).2
      rw [top_cons, rbInsertLoop_red cb n h hf]
      by_cases hu : g.sib.color = .red
      · -- colour flip: two steps up
        rw [if_pos hu]
        have h2 := at_cons.mp (at_cons.mp h)
        obtain ⟨hat, hpar⟩ := insertFlip_at h2 (by cases f.dir <;> simp [CTree.mk])
          (CTree.ne_nil_of_red hu)
        rw [ptr_mk] at hat hpar
        rw [CTree.mk_paint] at hat
        have hflip : I (insertFlip s f.ptr g.ptr (ptr g.sib)).1.aug K' _ := hcb.flip hf hu hI
        obtain ⟨hK1, hK2, hK3⟩ := hK
        rw [hf] at hK2 hK3
        rw [hg] at hK3 hacc'
        simp only [Color.weight, add_zero] at hK2 hK3
        obtain ⟨c, a, u, b, hsib⟩ := CTree.exists_mk .left (CTree.ne_nil_of_red hu)
        rw [hsib, CTree.color_mk] at hu
        subst hu
        rw [hsib] at hK2 hgs
        obtain ⟨m, hm, ha, hb⟩ := CTree.height_mk.mp hK2
        obtain rfl : k = m := hm
        obtain ⟨-, har, hbr⟩ := CTree.noRedRed_mk.mp hgs
        rw [hsib, CTree.mk_paint] at hat hflip
        obtain ⟨s', t, hs', ht, hrb, hin, hQ⟩ := rbInsertLoop_spec hcb n K' _ _ (k + 1)
          (by simp only [List.length_cons] at hn; omega) hat CTree.color_mk
          (by simp [hTr, hfs, har, hbr])
          (by
            simp only [CTree.height_mk, Color.weight]
            exact ⟨k + 1, rfl, ⟨k, rfl, hTh, hK1⟩, k, rfl, ha, hb⟩) hK3 hacc' hflip
        simp only [ptr_mk] at hs'
        refine ⟨s', t, by rw [hpar, hsib, ptr_mk]; exact hs', ht, hrb, ?_, hQ⟩
        rw [hin]
        simp [Ctx.around, hsib]
      · rw [if_neg hu]
        have hu : g.sib.color = .black := by cases hc : g.sib.color <;> simp_all
        obtain ⟨t, hrot, hQ⟩ := insertRotate_spec cb hcb h hI hT hTr hTh hK hf hg hfs hfb hgs hu
        have hK3 := hK.2.2
        rw [hf, hg] at hK3
        rw [hg] at hacc'
        have hfin : (Ctx.fill K' t).RedBlack :=
          Ctx.redBlack_fill hrot.noRedRed hrot.height hK3 (by rw [hrot.black]; exact hacc')
        have hin : (Ctx.fill K' t).inorder = Ctx.around (f :: g :: K') T.inorder := by
          rw [Ctx.inorder_fill, hrot.inorder]; rfl
        cases hd : g.dir with
        | left =>
          rw [hd] at hrot hQ
          exact ⟨_, _, rfl, at_iff.mp hrot.mem, hfin, hin, hQ⟩
        | right =>
          rw [hd] at hrot hQ
          refine ⟨_, _, ?_, at_iff.mp hrot.mem, hfin, hin, hQ⟩
          -- the missing `break`: the next round finds a black parent and stops
          obtain ⟨n, rfl⟩ : ∃ m, n = m + 1 := ⟨n - 1, by simp only [List.length_cons] at hn; omega⟩
          have hne : t ≠ .nil := CTree.ne_nil_of_height hrot.height
          rw [← hrot.root, rbInsertLoop, if_neg (ptr_ne_zero hrot.mem.tree hne)]
          unfold State.rbIsBlack
          rw [rep_color hrot.mem.tree hne, pcIsBlack_or (top_aligned hrot.mem.ctx), hrot.black]
          rfl

end HardStack.Rbtree.Insert
