import HardStack.Lib.SubtreeMax
import HardStack.Rbtree.Erase
import HardStack.IntervalTree.Model

/-! # The callbacks keep the subtree maxima

`Keeps A n a t`: the table `a` is exact for the tree `t`, and `t` is small enough for fuel `n`. The
rotation callback keeps it in any surroundings. The propagation callback walks up a path of parents
(`Climbs`); on the path above the hole of a context it is `refresh`. With both, the callbacks meet the
rule for taking a node out (`augment_eraseRule`). -/

namespace HardStack.IntervalTree.Augment

open HardStack.Lib.RbTree HardStack.Lib.SubtreeMax
open HardStack.Rbtree.Model HardStack.Rbtree.Layout HardStack.Rbtree.Callbacks
open HardStack.Rbtree.Erase HardStack.IntervalTree.Model

variable {A : Nodes} {s : State SubtreeLast} {K : Ctx ℕ} {t T : CTree ℕ} {n : ℕ}

/-- The table and the tree, as the callbacks keep them. -/
structure Keeps (A : Nodes) (n : ℕ) (a : SubtreeLast) (t : CTree ℕ) : Prop where
  exact : Exact (lastPgoff A) a.last t
  ended : a.ended = true
  length : t.inorder.length < n

/-! ### Recomputing one entry -/

/-- What a parent reads at the child `x`: the number `m`, `0` for no child. -/
def Entry (a : ℕ → ℕ) (x m : ℕ) : Prop := (x = 0 → m = 0) ∧ (x ≠ 0 → a x = m)

theorem entry_of_exact {a : ℕ → ℕ} (h : Exact (lastPgoff A) a T) (h0 : ∀ x ∈ T.inorder, x ≠ 0) :
    Entry a (ptr T) (maxOf (lastPgoff A) T) := by
  cases T with
  | nil => exact ⟨fun _ => rfl, fun hne => absurd rfl hne⟩
  | node c l p r =>
    have hp : p ≠ 0 := h0 p (by simp [CTree.inorder])
    exact ⟨fun hz => absurd hz hp, fun _ => h.1⟩

theorem maxWithChild_eq {x m : ℕ} (k : ℕ) (h : Entry s.aug.last x m) :
    maxWithChild s k x = max k m := by
  unfold maxWithChild
  by_cases hx : x = 0
  · rw [if_neg (by simpa using hx), h.1 hx, Nat.max_zero]
  · simp only [if_pos hx, h.2 hx]
    split_ifs <;> omega

theorem computeSubtreeLast_eq {d : Dir} {g x y mx my : ℕ} (hx : s.child d g = x)
    (hy : s.child d.flip g = y) (hmx : Entry s.aug.last x mx) (hmy : Entry s.aug.last y my) :
    computeSubtreeLast A s g = max (lastPgoff A g) (max mx my) := by
  unfold computeSubtreeLast
  cases d with
  | left =>
    rw [Dir.flip] at hy
    rw [hx, hy]
    dsimp only
    rw [maxWithChild_eq _ hmx, maxWithChild_eq _ hmy, max_assoc]
  | right =>
    rw [Dir.flip] at hy
    rw [hx, hy]
    dsimp only
    rw [maxWithChild_eq _ hmy, maxWithChild_eq _ hmx, max_assoc, max_comm my]

/-! ### Rotations -/

theorem rotatedData_eq {a a' : SubtreeLast} {d : Dir} {g p : ℕ} {B U : CTree ℕ}
    (h : RotatedData (augment A n) a d g p B U a')
    (hB : Entry a.last (ptr B) (maxOf (lastPgoff A) B))
    (hU : Entry a.last (ptr U) (maxOf (lastPgoff A) U)) (hpB : p ∉ B.inorder)
    (hpU : p ∉ U.inorder) :
    a'.last = rotated (lastPgoff A) a.last g p B U ∧ a'.ended = a.ended := by
  obtain ⟨s, rfl, rfl, hcB, hcU⟩ := h
  have hkeep : ∀ T : CTree ℕ, p ∉ T.inorder → Entry s.aug.last (ptr T) (maxOf (lastPgoff A) T) →
      Entry (Function.update s.aug.last p (s.aug.last g)) (ptr T) (maxOf (lastPgoff A) T) := by
    intro T hp hT
    refine ⟨hT.1, fun h0 => ?_⟩
    have hne : ptr T ≠ p := fun h' => hp (h' ▸ ptr_mem h0)
    rw [Function.update_of_ne hne, hT.2 h0]
  have hcomp := computeSubtreeLast_eq (A := A) (s := s.augment (s.aug.set p (s.aug.last g)))
    hcB hcU (hkeep B hpB hB) (hkeep U hpU hU)
  refine ⟨?_, rfl⟩
  unfold rotated
  rw [← hcomp]
  rfl

theorem augment_upkeep (A : Nodes) (n k : ℕ) : Upkeep (augment A k) (Keeps A n) where
  paint := by
    intro a K t c h
    obtain ⟨ht, hK⟩ := exact_fill.mp h.exact
    refine ⟨exact_fill.mpr ⟨exact_paint.mpr ht, by rwa [maxOf_paint]⟩, h.ended, ?_⟩
    have := h.length
    rwa [Ctx.inorder_fill, CTree.inorder_paint, ← Ctx.inorder_fill]
  rotate := by
    intro a a' K d c₁ c₂ c₃ c₄ N B U p g hP hr h
    have hnd := hP.nodup
    have h0 := hP.ne_zero
    simp only [Ctx.inorder_fill, Ctx.nodup_around, Ctx.mem_around, CTree.inorder_mk, nodup_ord,
      mem_ord, not_or, List.Disjoint] at hnd h0
    obtain ⟨⟨-, -, ⟨-, hpB, -, -, -⟩, -, hdU⟩, -, -⟩ := hnd
    obtain ⟨-, hNB, hU⟩ := exact_mk.mp (exact_fill.mp h.exact).1
    obtain ⟨-, -, hB⟩ := exact_mk.mp hNB
    obtain ⟨hlast, hended⟩ := rotatedData_eq hr
      (entry_of_exact hB fun x hx => h0 x (by tauto))
      (entry_of_exact hU fun x hx => h0 x (by tauto)) hpB (fun hx => hdU (Or.inl rfl) hx)
    refine ⟨by rw [hlast]; exact h.exact.rotate hP.nodup, hended.trans h.ended, ?_⟩
    have hlen : (K.fill (.mk d c₃ N p (.mk d c₄ B g U))).inorder =
        (K.fill (.mk d c₁ (.mk d c₂ N p B) g U)).inorder := by
      rw [Ctx.inorder_fill, Ctx.inorder_fill]
      congr 1
      cases d <;> simp [ord]
    rw [hlen]
    exact h.length

/-! ### Propagation -/

/-- The node above the hole of a path that leads to `stop`. -/
def above (stop : ℕ) : Ctx ℕ → ℕ
  | [] => stop
  | f :: _ => f.ptr

/-- The path from the hole `h` up to `stop`, as the propagation reads it. -/
def Climbs (s : State SubtreeLast) (stop : ℕ) : Ctx ℕ → ℕ → Prop
  | [], _ => True
  | f :: Z, h => f.ptr ≠ stop ∧ s.child f.dir f.ptr = h ∧ s.child f.dir.flip f.ptr = ptr f.sib ∧
      s.rbParent f.ptr = above stop Z ∧ Climbs s stop Z f.ptr

theorem climbs_augment {stop : ℕ} (a : SubtreeLast) : ∀ {Z : Ctx ℕ} {h : ℕ},
    Climbs s stop Z h → Climbs (s.augment a) stop Z h
  | [], _, _ => trivial
  | _ :: _, _, ⟨h1, h2, h3, h4, h5⟩ => ⟨h1, h2, h3, h4, climbs_augment a h5⟩

theorem climbs_of_ctxRep : ∀ {K : Ctx ℕ} {h : ℕ}, CtxRep s K h → Climbs s 0 K h
  | [], _, _ => trivial
  | f :: K, h, ⟨hp, hpc, hc1, hc2, _, hk⟩ => by
    refine ⟨hp.1, hc1, hc2, ?_, climbs_of_ctxRep hk⟩
    unfold State.rbParent
    rw [hpc, pcParent_or (top_aligned hk)]
    cases K <;> rfl

/-- **Propagation is `refresh`** along its path, given fuel for it. -/
theorem augmentPropagate_eq {stop : ℕ} : ∀ {Z : Ctx ℕ} {n h m : ℕ} {s : State SubtreeLast},
    Z.length < n → Climbs s stop Z h → Z.ptrs.Nodup → (∀ x ∈ Z.ptrs, x ≠ 0) →
    Entry s.aug.last h m → (∀ f ∈ Z, Exact (lastPgoff A) s.aug.last f.sib) →
    augmentPropagate A n s (above stop Z) stop =
      { s.aug with last := refresh (lastPgoff A) s.aug.last Z m }
  | Z, 0, _, _, _, hn, _, _, _, _, _ => absurd hn (by omega)
  | [], n + 1, _, _, s, _, _, _, _, _, _ => by
    rw [augmentPropagate]
    simp [above, refresh]
  | f :: Z, n + 1, h, m, s, hn, ⟨hstop, hc1, hc2, hpar, hZ⟩, hnd, h0, hm, hsib => by
    have hin : Ctx.ptrs (f :: Z) = f.ptr :: (f.sib.inorder ++ Ctx.ptrs Z) := rfl
    rw [hin] at h0
    rw [hin, List.nodup_cons, List.mem_append, not_or, List.nodup_append'] at hnd
    obtain ⟨⟨-, hfZ⟩, -, hndZ, -⟩ := hnd
    have hsS := entry_of_exact (hsib f (by simp)) fun x hx => h0 x (by simp [hx])
    have hcomp := computeSubtreeLast_eq (A := A) hc1 hc2 hm hsS
    rw [show above stop (f :: Z) = f.ptr from rfl, augmentPropagate, if_pos hstop]
    simp only [hcomp]
    rw [refresh]
    set v := max (lastPgoff A f.ptr) (max m (maxOf (lastPgoff A) f.sib)) with hv
    split_ifs with heq
    · rfl
    · have hoff : ∀ x, x ≠ f.ptr → (s.aug.set f.ptr v).last x = s.aug.last x := fun x hx =>
        s.aug.last_set_of_ne v hx
      have hrec := augmentPropagate_eq (n := n) (h := f.ptr) (m := v)
        (s := s.augment (s.aug.set f.ptr v))
        (by simp only [List.length_cons] at hn; omega) (climbs_augment _ hZ) hndZ
        (fun x hx => h0 x (by simp [hx]))
        ⟨fun hz => absurd hz (h0 f.ptr (by simp)), fun _ => s.aug.last_set_self f.ptr v⟩
        (fun g hg => exact_congr (fun x hx => hoff x fun hxf => hfZ (hxf ▸ sib_mem_ptrs hg hx))
          (hsib g (by simp [hg])))
      rw [hpar, hrec]
      rfl

/-! ### Taking a node out -/

theorem length_lt_of_keeps {a : SubtreeLast} (h : Keeps A n a (K.fill t)) : K.length < n := by
  have h1 := h.length
  have h2 := Ctx.length_le_around K t.inorder
  rw [Ctx.inorder_fill] at h1
  omega

/-- Propagation from the node above a hole whose subtree is right, where what stands above the node
fits the entry that the node still has. -/
theorem propagate_at {f : Frame ℕ} {k : ℕ} (h : At s (f :: K) T) (hk : (f :: K).length < k)
    (hT : Exact (lastPgoff A) s.aug.last T) (hs : Exact (lastPgoff A) s.aug.last f.sib)
    (hK : CtxExact (lastPgoff A) s.aug.last K (s.aug.last f.ptr)) :
    ∃ b, augmentPropagate A k s f.ptr 0 = { s.aug with last := b } ∧
      Exact (lastPgoff A) b (Ctx.fill (f :: K) T) := by
  have hP := proper_of_at h
  have hndF := h.nodup
  rw [Ctx.nodup_around] at hndF
  obtain ⟨-, hnd, hdis⟩ := hndF
  have hT0 : ∀ x ∈ T.inorder, x ≠ 0 := fun x hx =>
    hP.ne_zero x (by rw [Ctx.inorder_fill, Ctx.mem_around]; exact Or.inl hx)
  have hK0 : ∀ x ∈ Ctx.ptrs (f :: K), x ≠ 0 := fun x hx =>
    hP.ne_zero x (by rw [Ctx.inorder_fill, Ctx.mem_around]; exact Or.inr hx)
  have hsibs : ∀ g ∈ f :: K, Exact (lastPgoff A) s.aug.last g.sib := by
    intro g hg
    rcases List.mem_cons.mp hg with rfl | hg
    · exact hs
    · exact exact_sib hK hg
  refine ⟨_, augmentPropagate_eq hk (climbs_of_ctxRep h.ctx) hnd hK0 (entry_of_exact hT hT0) hsibs,
    exact_fill.mpr ⟨exact_congr (fun x hx => ?_) hT, ctxExact_refresh _ hnd hs hK⟩⟩
  exact refresh_of_notMem fun g hg h' => hdis hx (h' ▸ ptr_mem_ptrs hg)

theorem keeps_propagate {f : Frame ℕ} {k : ℕ} (h : At s (f :: K) T) (hended : s.aug.ended = true)
    (hk : (Ctx.fill (f :: K) T).inorder.length < n) (hkn : n ≤ k)
    (hT : Exact (lastPgoff A) s.aug.last T) (hs : Exact (lastPgoff A) s.aug.last f.sib)
    (hK : CtxExact (lastPgoff A) s.aug.last K (s.aug.last f.ptr)) :
    Keeps A n (augmentPropagate A k s f.ptr 0) (Ctx.fill (f :: K) T) := by
  have hlen := Ctx.length_le_around (f :: K) T.inorder
  rw [← Ctx.inorder_fill] at hlen
  obtain ⟨b, hb, hex⟩ := propagate_at h (k := k) (by omega) hT hs hK
  rw [hb]
  exact ⟨hex, hended, hk⟩

/-- The successor has the entry of the node it replaces: the part that both shapes share. -/
theorem keeps_splice {s₂ : State SubtreeLast} {c : Color} {l r' : CTree ℕ} {m v k : ℕ}
    (h : At s₂ K (.mk .left c l m r')) (hended : s₂.aug.ended = true)
    (hlen : (K.fill (.mk .left c l m r')).inorder.length < n) (hkn : n ≤ k)
    (hr : Exact (lastPgoff A) s₂.aug.last r') (hl : Exact (lastPgoff A) s₂.aug.last l)
    (hm : s₂.aug.last m = v) (hK : CtxExact (lastPgoff A) s₂.aug.last K v) :
    Keeps A n (augmentPropagate A k s₂ m 0) (K.fill (.mk .left c l m r')) := by
  have h' := at_right (Z := []).mpr h
  exact keeps_propagate h' hended hlen hkn hr hl (by rw [hm]; exact hK)

/-- The path to the successor's old place, once the right subtree hangs below the successor. -/
theorem climbs_retarget {s s₁ : State SubtreeLast} {stop : ℕ} {F : Frame ℕ} {K : Ctx ℕ} :
    ∀ {Z : Ctx ℕ} {z : Frame ℕ} {h : ℕ}, CtxRep s (z :: Z ++ F :: K) h → (Ctx.ptrs (z :: Z)).Nodup →
    (∀ f ∈ z :: Z, f.ptr ≠ stop ∧ ∀ d, s₁.child d f.ptr = s.child d f.ptr) →
    (∀ f ∈ z :: Z, f.ptr ≠ ptr (Ctx.fill (z :: Z) .nil) →
      s₁.parentColor f.ptr = s.parentColor f.ptr) →
    s₁.rbParent (ptr (Ctx.fill (z :: Z) .nil)) = stop → Climbs s₁ stop (z :: Z) h
  | [], z, h, ⟨_, _, hc1, hc2, _, _⟩, _, hch, _, hstop => by
    obtain ⟨hne, hc⟩ := hch z (by simp)
    rw [Ctx.fill, Ctx.fill, ptr_mk] at hstop
    exact ⟨hne, (hc _).trans hc1, (hc _).trans hc2, hstop, trivial⟩
  | y :: Z, z, h, ⟨_, hpc, hc1, hc2, _, hk⟩, hnd, hch, hpar, hstop => by
    have hin : Ctx.ptrs (z :: y :: Z) = z.ptr :: (z.sib.inorder ++ Ctx.ptrs (y :: Z)) := rfl
    rw [hin, List.nodup_cons, List.mem_append, not_or, List.nodup_append'] at hnd
    obtain ⟨⟨-, hz⟩, -, hnd, -⟩ := hnd
    have hroot : ptr (Ctx.fill (z :: y :: Z) .nil) = ptr (Ctx.fill (y :: Z) .nil) :=
      (ptr_fill (Z := Z) (z := y) (.mk z.dir z.color .nil z.ptr z.sib) .nil).1
    have hmem := (ptr_fill (Z := Z) (z := y) .nil .nil).2
    rw [hroot] at hpar hstop
    obtain ⟨hne, hc⟩ := hch z (by simp)
    refine ⟨hne, (hc _).trans hc1, (hc _).trans hc2, ?_,
      climbs_retarget hk hnd (fun f hf => hch f (List.mem_cons_of_mem z hf))
        (fun f hf => hpar f (List.mem_cons_of_mem z hf)) hstop⟩
    unfold State.rbParent
    rw [hpar z (by simp) (fun h' => hz (h' ▸ hmem)), hpc, pcParent_or (top_aligned hk)]
    rfl

/-- What exactness says at a node with two children. -/
theorem exact_node {a : ℕ → ℕ} {c : Color} {l r : CTree ℕ} {p : ℕ}
    (h : Exact (lastPgoff A) a (K.fill (.mk .left c l p r))) :
    Exact (lastPgoff A) a l ∧ Exact (lastPgoff A) a r ∧ CtxExact (lastPgoff A) a K (a p) := by
  obtain ⟨ht, hK⟩ := exact_fill.mp h
  obtain ⟨hp, hl, hr⟩ := exact_mk.mp ht
  rw [maxOf_mk, ← hp] at hK
  exact ⟨hl, hr, hK⟩

theorem keeps_lift {d : Dir} {c c' : Color} {p k : ℕ} {X : CTree ℕ} (hkn : n ≤ k)
    (h : At s K (X.paint c')) (hJ : Keeps A n s.aug (K.fill (.mk d c .nil p X))) :
    Keeps A n (augmentPropagate A k s (top K) 0) (K.fill (X.paint c')) := by
  obtain ⟨ht, hK⟩ := exact_fill.mp hJ.exact
  obtain ⟨-, -, hX⟩ := exact_mk.mp ht
  have hlen := hJ.length
  rw [Ctx.inorder_fill, Ctx.length_around, CTree.inorder_mk, length_ord] at hlen
  have hlen' : (K.fill (X.paint c')).inorder.length < n := by
    rw [Ctx.inorder_fill, Ctx.length_around, CTree.inorder_paint]
    omega
  cases K with
  | nil =>
    obtain ⟨k, rfl⟩ : ∃ j, k = j + 1 := ⟨k - 1, by omega⟩
    have hstop : augmentPropagate A (k + 1) s (top []) 0 = s.aug := by
      rw [augmentPropagate]; simp
    rw [hstop]
    exact ⟨exact_paint.mpr hX, hJ.ended, hlen'⟩
  | cons f K =>
    obtain ⟨hf, hs, hK⟩ := hK
    exact keeps_propagate h hJ.ended hlen' hkn (exact_paint.mpr hX) hs (by rw [hf]; exact hK)

theorem keeps_spliceTop {s₁ s₂ : State SubtreeLast} {c cs c' : Color} {l C : CTree ℕ} {p m k : ℕ}
    (hkn : n ≤ k) (h : At s K (.mk .left c l p (.mk .left cs .nil m C))) (h1 : s₁.aug = s.aug)
    (h2 : s₂.aug = augmentCopy s₁ p m) (h' : At s₂ K (.mk .left c l m (C.paint c')))
    (hJ : Keeps A n s.aug (K.fill (.mk .left c l p (.mk .left cs .nil m C)))) :
    Keeps A n (augmentPropagate A k s₂ m 0) (K.fill (.mk .left c l m (C.paint c'))) := by
  obtain ⟨hl, hr, hK⟩ := exact_node hJ.exact
  obtain ⟨-, -, hC⟩ := exact_mk.mp hr
  rw [augmentCopy, h1] at h2
  have hoff : ∀ x, x ≠ m → s₂.aug.last x = s.aug.last x := fun x hx => by
    rw [h2, s.aug.last_set_of_ne _ hx]
  have hnd := h.nodup
  simp only [Ctx.nodup_around, CTree.inorder_mk, nodup_ord, mem_ord, not_or, List.Disjoint] at hnd
  obtain ⟨⟨-, -, -, ⟨-, hmC, -⟩, hlr⟩, -, hKd⟩ := hnd
  have hlen := hJ.length
  simp only [Ctx.inorder_fill, Ctx.length_around, CTree.inorder_mk, length_ord] at hlen
  refine keeps_splice h' (by rw [h2]; exact hJ.ended) ?_ hkn
    (exact_paint.mpr (exact_congr (fun x hx => hoff x fun h => hmC (h ▸ hx)) hC))
    (exact_congr (fun x hx => hoff x ?_) hl) (by rw [h2, SubtreeLast.last_set_self])
    (ctxExact_congr (fun x hx => hoff x ?_) hK)
  · simp only [Ctx.inorder_fill, Ctx.length_around, CTree.inorder_mk, length_ord,
      CTree.inorder_paint]
    omega
  · rintro rfl; exact hlr hx (Or.inl rfl)
  · rintro rfl; exact hKd (Or.inr (Or.inr (Or.inl rfl))) hx

/-- The path that the first propagation takes when the successor comes from below the right child. -/
theorem climbs_unlinked {z : Frame ℕ} {Z : Ctx ℕ} {c cs : Color} {l r C : CTree ℕ} {p m : ℕ}
    (hr : r = Ctx.fill (z :: Z) (.mk .left cs .nil m C)) (hz : z.dir = .left)
    (h : At s K (.mk .left c l p r)) :
    Climbs (((s.setChild .left z.ptr (ptr C)).setChild .right m (ptr r)).rbSetParent (ptr r) m) m
      (z :: Z) (ptr C) := by
  have hat := at_right (Z := z :: Z).mpr (hr ▸ h)
  have hnd := hat.nodup
  rw [Ctx.nodup_around, Ctx.ptrs_append, List.nodup_append'] at hnd
  simp only [CTree.inorder_mk, mem_ord, List.Disjoint, List.mem_append] at hnd
  obtain ⟨-, ⟨hndZ, -, -⟩, hdis⟩ := hnd
  have hmem : ∀ f ∈ z :: Z, f.ptr ∈ Ctx.ptrs (z :: Z) := fun f hf => ptr_mem_ptrs hf
  have hm : ∀ f ∈ z :: Z, f.ptr ≠ m := fun f hf h' => hdis (Or.inl h') (Or.inl (hmem f hf))
  have hC : ∀ f ∈ z :: Z, ¬ (ptr C ≠ 0 ∧ f.ptr = ptr C) := fun f hf h' =>
    hdis (Or.inr (Or.inr (h'.2 ▸ ptr_mem h'.1))) (Or.inl (hmem f hf))
  have hroot : ptr r = ptr (Ctx.fill (z :: Z) .nil) := by rw [hr]; exact (ptr_fill _ _).1
  obtain ⟨hm4, -, -, -, -, -⟩ := rep_mk.mp hat.tree
  obtain ⟨hp, -, -, -, -, hrep⟩ := rep_mk.mp h.tree
  have hu := unlink_at (K := Z ++ ⟨.right, c, p, l⟩ :: K) hat
  have hctx := hu.ctx
  rw [ptr_paint] at hctx
  refine climbs_retarget hctx hndZ (fun f hf => ⟨hm f hf, fun d => ?_⟩) (fun f hf hne => ?_) ?_
  · simp [hm f hf, hz]
  · rw [← hroot] at hne
    rw [parentColor_rbSetParent, if_neg hne, parentColor_setChild, parentColor_setChild,
      parentColor_setChild, parentColor_adoptBlack, if_neg (hC f hf)]
  · have hr0 : ptr r ≠ 0 := by
      refine ptr_ne_zero hrep ?_
      rw [hr]
      intro h0
      have := congrArg CTree.inorder h0
      rw [Ctx.inorder_fill, CTree.inorder_mk] at this
      have hx : m ∈ (CTree.nil : CTree ℕ).inorder := by
        rw [← this, Ctx.mem_around]
        exact Or.inl (mem_ord.mpr (Or.inl rfl))
      cases hx
    unfold State.rbParent
    rw [← hroot, parentColor_rbSetParent, if_pos rfl, parentColor_setChild, parentColor_setChild,
      rep_reparent_word hrep hp.2 m hr0, pcParent_or hm4.2]

theorem keeps_spliceDeep {s₁ s₂ : State SubtreeLast} {z : Frame ℕ} {Z : Ctx ℕ} {c cs c' : Color}
    {l r C : CTree ℕ} {p m k : ℕ} (hkn : n ≤ k)
    (hr : r = Ctx.fill (z :: Z) (.mk .left cs .nil m C)) (hz : z.dir = .left)
    (h : At s K (.mk .left c l p r))
    (h1 : s₁ = ((s.setChild .left z.ptr (ptr C)).setChild .right m (ptr r)).rbSetParent (ptr r) m)
    (h2 : s₂.aug = augmentPropagate A k (s₁.augment (augmentCopy s₁ p m)) z.ptr m)
    (h' : At s₂ K (.mk .left c l m (Ctx.fill (z :: Z) (C.paint c'))))
    (hJ : Keeps A n s.aug (K.fill (.mk .left c l p r))) :
    Keeps A n (augmentPropagate A k s₂ m 0)
      (K.fill (.mk .left c l m (Ctx.fill (z :: Z) (C.paint c')))) := by
  obtain ⟨hl, hrx, hK⟩ := exact_node hJ.exact
  rw [hr] at hrx
  obtain ⟨hmC, hzp, hzs, hzZ⟩ := exact_fill.mp hrx
  obtain ⟨-, -, hC⟩ := exact_mk.mp hmC
  rw [← hzp] at hzZ
  -- where everything is
  have hP := proper_of_at h
  have hnd := h.nodup
  have hin : r.inorder = Ctx.around (z :: Z) (ord .left [] m C.inorder) := by
    rw [hr, Ctx.inorder_fill, CTree.inorder_mk]; rfl
  have hlen := hJ.length
  have h0 := hP.ne_zero
  simp only [Ctx.inorder_fill, Ctx.length_around, CTree.inorder_mk, length_ord, hin] at hlen
  simp only [Ctx.inorder_fill, Ctx.mem_around, CTree.inorder_mk, mem_ord, hin] at h0
  simp only [Ctx.nodup_around, CTree.inorder_mk, nodup_ord, mem_ord, hin, Ctx.mem_around,
    List.Disjoint] at hnd
  obtain ⟨⟨-, -, -, ⟨⟨-, hmC', -⟩, hndZ, hCZ⟩, hlr⟩, -, hKd⟩ := hnd
  have hmZ : m ∉ Ctx.ptrs (z :: Z) := fun hx => hCZ (Or.inl rfl) hx
  -- the table after the copy
  have haug : s₁.aug = s.aug := by rw [h1]; rfl
  set a₁ := s.aug.set m (s.aug.last p) with ha₁
  have hoff : ∀ x, x ≠ m → a₁.last x = s.aug.last x := fun x hx => s.aug.last_set_of_ne _ hx
  rw [augmentCopy, haug, ← ha₁] at h2
  have hC1 : Exact (lastPgoff A) a₁.last C :=
    exact_congr (fun x hx => hoff x fun h => hmC' (h ▸ hx)) hC
  have hz1 : Exact (lastPgoff A) a₁.last z.sib :=
    exact_congr (fun x hx => hoff x fun h => hmZ (h ▸ sib_mem_ptrs (List.mem_cons_self) hx)) hzs
  have hZ1 : CtxExact (lastPgoff A) a₁.last Z (a₁.last z.ptr) := by
    rw [hoff z.ptr fun h => hmZ (h ▸ ptr_mem_ptrs List.mem_cons_self)]
    refine ctxExact_congr (fun x hx => hoff x fun h => hmZ (h ▸ ?_)) hzZ
    exact List.mem_cons_of_mem _ (List.mem_append_right _ hx)
  -- the first propagation
  have hclimb := climbs_unlinked hr hz h
  rw [← h1] at hclimb
  have hsib : ∀ f ∈ z :: Z, Exact (lastPgoff A) a₁.last f.sib := by
    intro f hf
    rcases List.mem_cons.mp hf with rfl | hf
    · exact hz1
    · exact exact_sib hZ1 hf
  have hZlen : (z :: Z).length ≤ (Ctx.ptrs (z :: Z)).length := by
    have h1 := Ctx.length_le_around (z :: Z) ([] : List ℕ)
    rwa [Ctx.length_around, List.length_nil, Nat.zero_add] at h1
  have hprop := augmentPropagate_eq (A := A) (n := k) (s := s₁.augment a₁)
    (m := maxOf (lastPgoff A) C) (by omega) (climbs_augment a₁ hclimb) hndZ
    (fun x hx => h0 x (Or.inl (Or.inr (Or.inr (Or.inr hx)))))
    (entry_of_exact hC1 fun x hx => h0 x (Or.inl (Or.inr (Or.inr (Or.inl (Or.inr (Or.inr hx)))))))
    hsib
  set a₂ := refresh (lastPgoff A) a₁.last (z :: Z) (maxOf (lastPgoff A) C) with ha₂
  have h2' : s₂.aug = { a₁ with last := a₂ } := h2.trans hprop
  have hlast : s₂.aug.last = a₂ := by rw [h2']
  -- off the path and the successor the table is the old one
  have hoff₂ : ∀ x, x ∉ Ctx.ptrs (z :: Z) → a₂ x = a₁.last x := fun x hx =>
    refresh_of_notMem fun f hf h => hx (h ▸ ptr_mem_ptrs hf)
  have hl2 : Exact (lastPgoff A) a₂ l := by
    refine exact_congr (fun x hx => ?_) hl
    rw [hoff₂ x fun h => hlr hx (Or.inr h), hoff x]
    rintro rfl
    exact hlr hx (Or.inl (Or.inl rfl))
  have hr2 : Exact (lastPgoff A) a₂ (Ctx.fill (z :: Z) (C.paint c')) := by
    refine exact_fill.mpr ⟨exact_paint.mpr (exact_congr (fun x hx => ?_) hC1), ?_⟩
    · exact hoff₂ x fun h => hCZ (Or.inr (Or.inr hx)) h
    · rw [maxOf_paint]
      exact ctxExact_refresh _ hndZ hz1 hZ1
  have hK2 : CtxExact (lastPgoff A) a₂ K (s.aug.last p) := by
    refine ctxExact_congr (fun x hx => ?_) hK
    rw [hoff₂ x fun h => hKd (Or.inr (Or.inr (Or.inr h))) hx, hoff x]
    rintro rfl
    exact hKd (Or.inr (Or.inr (Or.inl (Or.inl rfl)))) hx
  have hm2 : a₂ m = s.aug.last p := by
    rw [hoff₂ m hmZ, SubtreeLast.last_set_self]
  rw [← hlast] at hl2 hr2 hK2 hm2
  refine keeps_splice h' (by rw [h2']; exact hJ.ended) ?_ hkn hr2 hl2 hm2 hK2
  simp only [Ctx.inorder_fill, Ctx.length_around, CTree.inorder_mk, length_ord, CTree.inorder_paint]
  omega

/-- **The callbacks keep the maxima** while a node is taken out. -/
theorem augment_eraseRule (A : Nodes) {n k : ℕ} (hkn : n ≤ k) :
    EraseRule (augment A k) (Keeps A n) where
  toUpkeep := augment_upkeep A n k
  lift := by
    rintro s K d c p X _ h ⟨c', rfl⟩ hJ
    exact keeps_lift hkn h hJ
  splice h h1 h2 h' hJ := keeps_spliceTop hkn h h1 h2 h' hJ
  spliceDeep hr hZ h h1 h2 h' hJ :=
    keeps_spliceDeep hkn hr (hZ _ List.mem_cons_self) h h1 h2 h' hJ

end HardStack.IntervalTree.Augment
