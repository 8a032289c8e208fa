import HardStack.Lib.TreeOrder
import HardStack.Rbtree.Neighbour
import HardStack.Rbtree.Run

/-! # The traversals of a tree

Each of the three loops steps through one sequence of the tree: the in-order one, its reverse, and the
postorder one. `rb_next` is `rb_prev` in the mirror image of the memory. -/

namespace HardStack.Rbtree.Traversal

open HardStack.Lib.RbTree HardStack.Rbtree.Model HardStack.Rbtree.Layout HardStack.Rbtree.Neighbour

variable {α : Type} {s : State α} {K : Ctx ℕ} {t : CTree ℕ}

/-! ### Loops -/

/-- A loop whose step goes from each node of a sequence to the next one. -/
theorem visit_eq {next : ℕ → Option ℕ} : ∀ (L : List ℕ) (n : ℕ),
    (∀ A x B, L = A ++ x :: B → next x = some (B.headD 0)) → 0 ∉ L → L.length < n →
    visit next n (L.headD 0) = some L
  | _, 0, _, _, hn => absurd hn (Nat.not_lt_zero _)
  | [], n + 1, _, _, _ => by rw [List.headD_nil, visit, if_pos rfl]
  | x :: L, n + 1, hnext, h0, hn => by
    rw [List.mem_cons, not_or] at h0
    have hrest := visit_eq L n (fun A y B hL => hnext (x :: A) y B (by rw [hL]; rfl)) h0.2
      (Nat.lt_of_succ_lt_succ hn)
    rw [List.headD_cons, visit, if_neg (Ne.symm h0.1), hnext [] x L rfl]
    simp only [Option.bind_eq_bind, Option.bind_some, hrest]

theorem zero_notMem {par : ℕ} (h : Rep s par t) : 0 ∉ t.inorder := fun h0 => (addr_of_mem h h0).1 rfl

theorem lastPtr_reverse (L : List ℕ) : lastPtr L.reverse = L.headD 0 := by
  unfold lastPtr
  rw [List.getLast?_reverse, List.headD_eq_head?_getD]

/-! ### In order -/

/-- The memory with left and right exchanged. -/
def mirror (s : State α) : State α := { s with child := fun d => s.child d.flip }

theorem rep_mirror : ∀ {t : CTree ℕ} {par : ℕ}, Rep s par t → Rep (mirror s) par t.mirror
  | .nil, _, _ => trivial
  | .node c l p r, par, ⟨hp, hpc, hl, hr, hL, hR⟩ => by
    have hptr : ∀ t : CTree ℕ, ptr t.mirror = ptr t := fun t => by cases t <;> rfl
    exact ⟨hp, hpc, hr.trans (hptr r).symm, hl.trans (hptr l).symm, rep_mirror hR, rep_mirror hL⟩

theorem treeOf_mirror (h : TreeOf s t) : TreeOf (mirror s) t.mirror := by
  refine ⟨h.root.trans ?_, rep_mirror h.tree, ?_⟩
  · cases t <;> rfl
  · rw [CTree.inorder_mirror, List.nodup_reverse]
    exact h.nodup

theorem descend_mirror (d : Dir) : ∀ n p, descend (mirror s) d n p = descend s d.flip n p
  | 0, _ => rfl
  | n + 1, p => by
    rw [descend, descend, descend_mirror d n]
    rfl

theorem climb_mirror (d : Dir) : ∀ n p, climb (mirror s) d n p = climb s d.flip n p
  | 0, _ => rfl
  | n + 1, p => by
    rw [climb, climb]
    simp only [climb_mirror d n]
    rfl

theorem rbPrev_mirror (fuel n : ℕ) : rbPrev fuel (mirror s) n = rbNext fuel s n := by
  unfold rbPrev rbNext rbNeighbour
  rw [descend_mirror, climb_mirror]
  rfl

/-- **The successor.** -/
theorem rbNext_spec {L M : List ℕ} {n : ℕ} (fuel : ℕ) (h : TreeOf s t)
    (hin : t.inorder = L ++ n :: M) (hf : t.inorder.length < fuel) :
    rbNext fuel s n = some (M.headD 0) := by
  have hin' : t.mirror.inorder = M.reverse ++ n :: L.reverse := by
    rw [CTree.inorder_mirror, hin, List.reverse_append, List.reverse_cons, List.append_assoc]
    rfl
  have hlen : t.mirror.inorder.length < fuel := by
    rw [CTree.inorder_mirror, List.length_reverse]
    exact hf
  rw [← rbPrev_mirror, rbPrev_spec fuel (treeOf_mirror h) hin' hlen, lastPtr_reverse]

theorem rbFirst_spec (fuel : ℕ) (h : TreeOf s t) (hf : t.inorder.length < fuel) :
    rbFirst fuel s = some (t.inorder.headD 0) := by
  unfold rbFirst
  rw [h.root]
  by_cases hne : t = .nil
  · subst hne
    rfl
  · rw [if_neg (ptr_ne_zero h.tree hne), descend_left h.tree hne hf.le]

theorem rbLast_spec (fuel : ℕ) (h : TreeOf s t) (hf : t.inorder.length < fuel) :
    rbLast fuel s = some (t.inorder.reverse.headD 0) := by
  unfold rbLast
  rw [h.root]
  by_cases hne : t = .nil
  · subst hne
    rfl
  · rw [if_neg (ptr_ne_zero h.tree hne), descend_right h.tree hne hf.le, ← lastPtr_reverse,
      List.reverse_reverse]

/-! ### Postorder -/

theorem rbLeftDeepestNode_spec : ∀ {t : CTree ℕ} {par n : ℕ}, Rep s par t → t ≠ .nil →
    t.inorder.length ≤ n → rbLeftDeepestNode s n (ptr t) = some (t.postorder.headD 0)
  | .nil, _, _, _, h, _ => absurd rfl h
  | .node c l p r, par, n, ⟨hp, _, hl, hr, hL, hR⟩, _, hn => by
    have hin : (CTree.node c l p r).inorder = l.inorder ++ p :: r.inorder := rfl
    have hpost : (CTree.node c l p r).postorder = l.postorder ++ (r.postorder ++ [p]) := rfl
    rw [hin, List.length_append, List.length_cons] at hn
    obtain ⟨n, rfl⟩ : ∃ m, n = m + 1 := ⟨n - 1, by omega⟩
    show rbLeftDeepestNode s (n + 1) p = _
    rw [rbLeftDeepestNode, hl, hr, hpost]
    by_cases hnl : l = .nil
    · subst hnl
      rw [if_neg (by simp)]
      by_cases hnr : r = .nil
      · subst hnr
        rw [if_neg (by simp)]
        rfl
      · obtain ⟨x, L, hx⟩ := List.exists_cons_of_ne_nil (CTree.postorder_ne_nil hnr)
        rw [if_pos (ptr_ne_zero hR hnr), rbLeftDeepestNode_spec hR hnr (by omega), hx]
        rfl
    · obtain ⟨x, L, hx⟩ := List.exists_cons_of_ne_nil (CTree.postorder_ne_nil hnl)
      rw [if_pos (ptr_ne_zero hL hnl), rbLeftDeepestNode_spec hL hnl (by omega), hx]
      rfl

theorem rbNextPostorder_at {fuel : ℕ} (h : At s K t) (hne : t ≠ .nil)
    (hf : (K.around t.inorder).length < fuel) :
    rbNextPostorder fuel s (ptr t) = some (K.postAfter.headD 0) := by
  have hpar : s.rbParent (ptr t) = top K := by
    unfold State.rbParent
    rw [rep_color h.tree hne, pcParent_or (top_aligned h.ctx)]
  unfold rbNextPostorder
  rw [if_neg (ptr_ne_zero h.tree hne)]
  simp only [hpar]
  cases K with
  | nil => simp [Ctx.postAfter]
  | cons f K =>
    obtain ⟨hp, -, hc1, hc2, hsib, -⟩ := h.ctx
    rw [Ctx.length_around] at hf
    have hptrs : Ctx.ptrs (f :: K) = f.ptr :: (f.sib.inorder ++ Ctx.ptrs K) := rfl
    rw [hptrs, List.length_cons, List.length_append] at hf
    rw [top_cons]
    cases hd : f.dir with
    | left =>
      rw [hd] at hc1 hc2
      have hc2' : s.child .right f.ptr = ptr f.sib := hc2
      rw [hc1, hc2']
      by_cases hs : f.sib = .nil
      · rw [if_neg fun hx => hx.2.2 (by rw [hs]; rfl)]
        simp [Ctx.postAfter, hd, hs, CTree.postorder]
      · obtain ⟨x, L, hx⟩ := List.exists_cons_of_ne_nil (CTree.postorder_ne_nil hs)
        rw [if_pos ⟨hp.1, rfl, ptr_ne_zero hsib hs⟩, rbLeftDeepestNode_spec hsib hs (by omega)]
        simp [Ctx.postAfter, hd, hx]
    | right =>
      -- the node on the left is another one
      rw [hd] at hc2
      have hc2' : s.child .left f.ptr = ptr f.sib := hc2
      have hno : ptr t ≠ ptr f.sib := by
        intro heq
        have hnd := (at_cons.mp h).nodup
        simp only [Ctx.nodup_around, CTree.inorder_mk, nodup_ord] at hnd
        have h0 := ptr_ne_zero h.tree hne
        exact hnd.1.2.2.2.2 (ptr_mem h0) (heq ▸ ptr_mem (heq ▸ h0))
      rw [hc2', if_neg fun hx => hno hx.2.1]
      simp [Ctx.postAfter, hd]

/-- **The next node in postorder.** -/
theorem rbNextPostorder_spec {A B : List ℕ} {x : ℕ} (fuel : ℕ) (h : TreeOf s t)
    (hpost : t.postorder = A ++ x :: B) (hf : t.inorder.length < fuel) :
    rbNextPostorder fuel s x = some (B.headD 0) := by
  have hperm := CTree.postorder_perm t
  have hmem : x ∈ t.inorder := hperm.subset (by rw [hpost]; simp)
  have hnd : (A ++ x :: B).Nodup := hpost ▸ hperm.nodup_iff.mpr h.nodup
  obtain ⟨K, c, l, r, rfl⟩ := Ctx.exists_fill hmem
  rw [Ctx.inorder_fill] at hf
  have hnext := rbNextPostorder_at (at_iff.mpr h) (by simp) hf
  -- the node occurs once, so what stands after it is determined
  rw [Ctx.postorder_fill] at hpost
  have hsplit : (K.postBefore ++ (l.postorder ++ r.postorder)) ++ x :: K.postAfter = A ++ x :: B := by
    rw [← hpost]
    simp [CTree.postorder]
  have hA : x ∉ A := fun hx => (List.nodup_append.mp hnd).2.2 x hx x (by simp) rfl
  have hB : x ∉ B := (List.nodup_cons.mp (List.nodup_append.mp hnd).2.1).1
  obtain ⟨-, -, rfl⟩ := (List.append_cons_inj_of_notMem hA hB).mp hsplit.symm
  exact hnext

theorem rbFirstPostorder_spec (fuel : ℕ) (h : TreeOf s t) (hf : t.inorder.length < fuel) :
    rbFirstPostorder fuel s = some (t.postorder.headD 0) := by
  unfold rbFirstPostorder
  rw [h.root]
  by_cases hne : t = .nil
  · subst hne
    rfl
  · rw [if_neg (ptr_ne_zero h.tree hne), rbLeftDeepestNode_spec h.tree hne hf.le]

/-- The children of a node come before it. -/
theorem child_before : ∀ {t : CTree ℕ} {par : ℕ}, Rep s par t → ∀ x ∈ t.inorder, ∀ d,
    s.child d x ≠ 0 → Before t.postorder (s.child d x) x
  | .node c l p r, par, ⟨hp, _, hl, hr, hL, hR⟩, x, hx, d, hd => by
    have hx' : x ∈ l.inorder ++ p :: r.inorder := hx
    show Before (l.postorder ++ (r.postorder ++ [p])) _ _
    rw [List.mem_append, List.mem_cons] at hx'
    rcases hx' with hx | rfl | hx
    · exact (child_before hL x hx d hd).append [] (r.postorder ++ [p])
    · cases d with
      | left =>
        rw [hl] at hd ⊢
        exact before_of_mem ((CTree.postorder_perm l).symm.subset (ptr_mem hd))
      | right =>
        rw [hr] at hd ⊢
        have := @before_of_mem _ r.postorder [] [] _ x
          ((CTree.postorder_perm r).symm.subset (ptr_mem hd))
        simpa using this.append l.postorder []
    · exact (child_before hR x hx d hd).append l.postorder [p]

/-! ### Replacement -/

/-- The memory before the pointers to the victim change. -/
def copied (s : State α) (victim new : ℕ) : State α :=
  let s := ((s.setPc new (s.parentColor victim)).setChild .right new (s.child .right victim)).setChild
    .left new (s.child .left victim)
  let s := s.adopt (s.child .left victim) new
  s.adopt (s.child .right victim) new

/-- The new node gets the fields of the victim, and the children of the victim a new parent. -/
structure Copied (s s' : State α) (victim new : ℕ) : Prop where
  root : s'.root = s.root
  word : s'.parentColor new = s.parentColor victim
  child : ∀ d, s'.child d new = s.child d victim
  sameChild : ∀ d x, x ≠ new → s'.child d x = s.child d x
  parent : ∀ d, s.child d victim ≠ 0 →
    s'.parentColor (s.child d victim) = s.parentColor (s.child d victim) % 2 ||| new
  sameWord : ∀ x, x ≠ new → (∀ d, s.child d victim ≠ 0 → x ≠ s.child d victim) →
    s'.parentColor x = s.parentColor x

theorem copied_spec {victim new : ℕ} (hne : victim ≠ new) (hnew : ∀ d, s.child d victim ≠ new)
    (hlr : s.child .left victim ≠ 0 → s.child .left victim ≠ s.child .right victim) :
    Copied s (copied s victim new) victim new := by
  have hl := hnew .left
  have hr := hnew .right
  constructor
  · simp [copied]
  · simp [copied, hne, Ne.symm hl, Ne.symm hr]
  · intro d
    cases d <;> simp [copied]
  · intro d x hx
    cases d <;> simp [copied, hx]
  · intro d hd
    cases d with
    | left => simp [copied, hne, hl, hd, hlr hd]
    | right =>
      by_cases h0 : s.child .left victim = 0
      · simp [copied, hne, hr, hd, h0]
      · simp [copied, hne, hr, hd, Ne.symm (hlr h0)]
  · intro x hx hd
    have h1 : ¬ (s.child .left victim ≠ 0 ∧ x = s.child .left victim) := fun h => hd .left h.1 h.2
    have h2 : ¬ (s.child .right victim ≠ 0 ∧ x = s.child .right victim) := fun h => hd .right h.1 h.2
    unfold copied
    simp only [parentColor_adopt, child_adopt, parentColor_setChild, child_setChild, parentColor_setPc,
      child_setPc, hne, hx, and_false, if_false, reduceCtorEq]
    rw [if_neg h2, if_neg h1]

/-- A subtree of the victim is one of the new node. -/
theorem rep_copied {s' : State α} {victim new : ℕ} {d : Dir} {a b : CTree ℕ}
    (hc : Copied s s' victim new) (ha : s.child d victim = ptr a) (hb : s.child d.flip victim = ptr b)
    (h : Rep s victim a) (h4 : 4 ∣ victim) (hnd : a.inorder.Nodup) (hab : ∀ x ∈ a.inorder, x ∉ b.inorder)
    (hnew : new ∉ a.inorder) : Rep s' new a := by
  have hne : ∀ x ∈ a.inorder, x ≠ new := fun x hx => ne_of_mem_of_not_mem hx hnew
  refine rep_reparent h hnd (fun x hx hxa => hc.sameWord x (hne x hx) fun d' hd' hxd => ?_)
    (fun x hx d' => hc.sameChild d' x (hne x hx)) fun h0 => ?_
  · by_cases hd : d' = d
    · rw [hd, ha] at hxd
      exact hxa hxd
    · have hflip : d' = d.flip := by
        cases d <;> cases d' <;> first | rfl | exact absurd rfl hd
      rw [hflip, hb] at hd' hxd
      exact hab x hx (hxd ▸ ptr_mem hd')
  · have hword := hc.parent d (ha ▸ h0)
    rw [ha] at hword
    rw [hword, rep_reparent_word h h4 new h0]

/-- **`rb_replace_node`** puts the new node into the place of the victim. -/
theorem rbReplaceNode_at {c : Color} {l r : CTree ℕ} {victim new : ℕ}
    (h : At s K (.node c l victim r)) (hn : Addr new)
    (hfresh : new ∉ K.around (CTree.node c l victim r).inorder) :
    At (rbReplaceNode s victim new) K (.node c l new r) := by
  obtain ⟨hv, hpc, hlv, hrv, hL, hR⟩ := h.tree
  obtain ⟨hnd, hKnd, hdis⟩ := Ctx.nodup_around.mp h.nodup
  have hin : ∀ p, (CTree.node c l p r).inorder = l.inorder ++ p :: r.inorder := fun _ => rfl
  rw [Ctx.mem_around, not_or, hin, List.mem_append, List.mem_cons, not_or, not_or] at hfresh
  obtain ⟨⟨hnl, hnv, hnr⟩, hnK⟩ := hfresh
  rw [hin] at hnd hdis
  have hvl : victim ∉ l.inorder := fun hx => (List.nodup_append.mp hnd).2.2 _ hx victim (by simp) rfl
  have hvr : victim ∉ r.inorder := (List.nodup_cons.mp (List.nodup_append.mp hnd).2.1).1
  have hlr : ∀ x ∈ l.inorder, x ∉ r.inorder := fun x hx hx' =>
    (List.nodup_append.mp hnd).2.2 x hx x (List.mem_cons_of_mem _ hx') rfl
  have hpar : s.rbParent victim = top K := by
    unfold State.rbParent
    rw [hpc, pcParent_or (top_aligned h.ctx)]
  have hnew : ∀ d, s.child d victim ≠ new := by
    intro d heq
    cases d with
    | left => exact hnl (by rw [← heq, hlv]; exact ptr_mem (by rw [← hlv, heq]; exact hn.1))
    | right => exact hnr (by rw [← heq, hrv]; exact ptr_mem (by rw [← hrv, heq]; exact hn.1))
  have hcopy := copied_spec (Ne.symm hnv) hnew fun h0 heq => by
    rw [hlv] at h0 heq
    rw [hrv] at heq
    exact hlr _ (ptr_mem h0) (heq ▸ ptr_mem (heq ▸ h0))
  have hK : ∀ x ∈ K.ptrs, Same s (copied s victim new) x := by
    intro x hx
    have hxn : x ≠ new := by
      rintro rfl
      exact hnK hx
    refine ⟨hcopy.sameWord x hxn fun d hd hxd => ?_, fun d => hcopy.sameChild d x hxn⟩
    cases d with
    | left => exact hdis (List.mem_append_left _ (ptr_mem (hlv ▸ hd))) (by rw [← hlv, ← hxd]; exact hx)
    | right =>
      exact hdis (List.mem_append_right _ (List.mem_cons_of_mem _ (ptr_mem (hrv ▸ hd))))
        (by rw [← hrv, ← hxd]; exact hx)
  have hndl := (List.nodup_append.mp hnd).1
  have hndr := (List.nodup_cons.mp (List.nodup_append.mp hnd).2.1).2
  have htree : Rep (copied s victim new) (top K) (.node c l new r) :=
    ⟨hn, hcopy.word.trans hpc, (hcopy.child .left).trans hlv, (hcopy.child .right).trans hrv,
      rep_copied hcopy hlv hrv hL hv.2 hndl hlr hnl,
      rep_copied hcopy hrv hlv hR hv.2 hndr (fun x hx hx' => hlr x hx' hx) hnr⟩
  have hnewnd : (l.inorder ++ new :: r.inorder).Nodup := by
    refine List.nodup_append.mpr ⟨hndl, List.nodup_cons.mpr ⟨hnr, hndr⟩, fun x hx y hy hxy => ?_⟩
    subst hxy
    rcases List.mem_cons.mp hy with rfl | hy
    · exact hnl hx
    · exact hlr x hx hy
  have hnewdis : ∀ x ∈ l.inorder ++ new :: r.inorder, x ∉ K.ptrs := by
    intro x hx hxK
    rw [List.mem_append, List.mem_cons] at hx
    rcases hx with hx | rfl | hx
    · exact hdis (List.mem_append_left _ hx) hxK
    · exact hnK hxK
    · exact hdis (List.mem_append_right _ (List.mem_cons_of_mem _ hx)) hxK
  have hreplace : rbReplaceNode s victim new =
      (copied s victim new).rbChangeChild victim new (top K) := by
    rw [← hpar]
    rfl
  rw [hreplace]
  refine ⟨?_, rep_congr (s := copied s victim new) ?_ htree, ?_⟩
  · exact ctxRep_changeChild (ctxRep_congr hcopy.root hK h.ctx) hv.1 hKnd
      fun hx => hdis (by simp) hx
  · intro x hx
    refine ⟨parentColor_changeChild _ _ _ _ x, fun d => child_changeChild _ d ?_⟩
    rintro rfl
    rcases top_mem K with h1 | h1
    · exact (addr_of_mem htree hx).1 (by rw [h1]; rfl)
    · exact hnewdis _ hx h1
  · exact Ctx.nodup_around.mpr ⟨hnewnd, hKnd, fun x hx hxK => hnewdis x hx hxK⟩

/-! ### The traversals -/

/-- The three loops run through the tree. -/
structure Traversed (s : State α) (t : CTree ℕ) : Prop where
  forward : ∀ fuel, t.inorder.length < fuel →
    (rbFirst fuel s).bind (visit (rbNext fuel s) fuel) = some t.inorder
  backward : ∀ fuel, t.inorder.length < fuel →
    (rbLast fuel s).bind (visit (rbPrev fuel s) fuel) = some t.inorder.reverse
  postorder : ∀ fuel, t.inorder.length < fuel →
    (rbFirstPostorder fuel s).bind (visit (rbNextPostorder fuel s) fuel) = some t.postorder
  once : t.inorder.Nodup
  all : t.postorder.Perm t.inorder
  children : ∀ x ∈ t.inorder, ∀ d, s.child d x ≠ 0 → Before t.postorder (s.child d x) x

theorem traversed (h : TreeOf s t) : Traversed s t := by
  have h0 := zero_notMem h.tree
  have hperm := CTree.postorder_perm t
  constructor
  · intro fuel hf
    rw [rbFirst_spec fuel h hf, Option.bind_some]
    exact visit_eq _ _ (fun A x B hL => rbNext_spec fuel h hL hf) h0 hf
  · intro fuel hf
    rw [rbLast_spec fuel h hf, Option.bind_some]
    refine visit_eq _ _ (fun A x B hL => ?_) (by simpa using h0) (by simpa using hf)
    have hin : t.inorder = B.reverse ++ x :: A.reverse := by
      rw [← List.reverse_reverse t.inorder, hL]
      simp
    rw [rbPrev_spec fuel h hin hf, lastPtr_reverse]
  · intro fuel hf
    rw [rbFirstPostorder_spec fuel h hf, Option.bind_some]
    exact visit_eq _ _ (fun A x B hL => rbNextPostorder_spec fuel h hL hf)
      (fun hx => h0 (hperm.subset hx)) (by rw [hperm.length_eq]; exact hf)
  · exact h.nodup
  · exact hperm
  · exact child_before h.tree

/-- **Traversals.** In a tree with consistent parent links, the loops visit every node once, in
order, in the reverse order, and children first; and `rb_replace_node` changes the sequences in the
victim only. -/
theorem treeOf_traversed (h : TreeOf s t) : Traversed s t ∧
    ∀ victim ∈ t.inorder, ∀ new, Addr new → new ∉ t.inorder →
      ∃ t', Traversed (rbReplaceNode s victim new) t' ∧
        t'.inorder = t.inorder.map (relabel victim new) ∧
        t'.postorder = t.postorder.map (relabel victim new) := by
  refine ⟨traversed h, fun victim hv new hn hfresh => ?_⟩
  obtain ⟨K, c, l, r, rfl⟩ := Ctx.exists_fill hv
  have hnd := h.nodup
  have hndp := (CTree.postorder_perm _).nodup_iff.mpr hnd
  rw [Ctx.inorder_fill] at hfresh
  have hat := at_iff.mp (rbReplaceNode_at (at_iff.mpr h) hn hfresh)
  have hin : ∀ p, (K.fill (CTree.node c l p r)).inorder =
      (K.before ++ l.inorder) ++ p :: (r.inorder ++ K.after) := by
    intro p
    rw [Ctx.inorder_fill, Ctx.around_eq]
    simp [CTree.inorder]
  have hpost : ∀ p, (K.fill (CTree.node c l p r)).postorder =
      (K.postBefore ++ (l.postorder ++ r.postorder)) ++ p :: K.postAfter := by
    intro p
    rw [Ctx.postorder_fill]
    simp [CTree.postorder]
  refine ⟨K.fill (.node c l new r), traversed hat, ?_, ?_⟩
  · rw [hin victim] at hnd ⊢
    rw [hin new, map_relabel new hnd]
  · rw [hpost victim] at hndp ⊢
    rw [hpost new, map_relabel new hndp]

/-- The black node `4` with the red node `8` on its right. -/
def twoNodes : State Unit where
  parentColor := fun x => if x = 8 then 4 else 1
  child := fun d x => if d = .right ∧ x = 4 then 8 else 0
  root := 4
  aug := ()

theorem treeOf_traversed_twoNodes :
    Traversed twoNodes (.node .black .nil 4 (.node .red .nil 8 .nil)) ∧
    ∃ t', Traversed (rbReplaceNode twoNodes 4 12) t' ∧ t'.inorder = [12, 8] ∧ t'.postorder = [8, 12] := by
  have h : TreeOf twoNodes (.node .black .nil 4 (.node .red .nil 8 .nil)) := by
    refine ⟨rfl, ⟨⟨by decide, by decide⟩, rfl, rfl, rfl, trivial, ?_⟩, by decide⟩
    exact ⟨⟨by decide, by decide⟩, rfl, rfl, rfl, trivial, trivial⟩
  obtain ⟨h1, h2⟩ := treeOf_traversed h
  exact ⟨h1, h2 4 (by decide) 12 ⟨by decide, by decide⟩ (by decide)⟩

end HardStack.Rbtree.Traversal
