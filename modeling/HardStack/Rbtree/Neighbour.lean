import HardStack.Rbtree.Layout

/-! # The neighbours of a node

`rb_prev` of a node is the last of what stands before it in the in-order sequence: the rightmost
node of its left subtree, or else the first ancestor on whose right side it lies. -/

namespace HardStack.Rbtree.Neighbour

open HardStack.Lib.RbTree HardStack.Rbtree.Model HardStack.Rbtree.Layout

variable {α : Type} {s : State α} {K : Ctx ℕ} {t : CTree ℕ}

/-- The last node of a sequence, `NULL` for none. -/
def lastPtr (L : List ℕ) : ℕ := L.getLast?.getD 0

@[simp] theorem lastPtr_nil : lastPtr [] = 0 := rfl

@[simp] theorem lastPtr_concat (L : List ℕ) (x : ℕ) : lastPtr (L ++ [x]) = x := by simp [lastPtr]

theorem lastPtr_mem {L : List ℕ} (h : L ≠ []) : lastPtr L ∈ L := by
  unfold lastPtr
  rw [List.getLast?_eq_getLast_of_ne_nil h]
  exact List.getLast_mem h

theorem lastPtr_append {L M : List ℕ} (h : M ≠ []) : lastPtr (L ++ M) = lastPtr M := by
  obtain ⟨M, x, rfl⟩ := List.eq_nil_or_concat M |>.resolve_left h
  rw [List.concat_eq_append, ← List.append_assoc, lastPtr_concat, lastPtr_concat]

theorem inorder_ne_nil (h : t ≠ .nil) : t.inorder ≠ [] := by
  cases t with
  | nil => exact absurd rfl h
  | node c l p r => simp [CTree.inorder]

theorem descend_right : ∀ {t : CTree ℕ} {par n : ℕ}, Rep s par t → t ≠ .nil →
    t.inorder.length ≤ n → descend s .right n (ptr t) = some (lastPtr t.inorder)
  | .nil, _, _, _, h, _ => absurd rfl h
  | .node c l p r, par, n, ⟨hp, _, _, hr, _, hR⟩, _, hn => by
    have hin : (CTree.node c l p r).inorder = l.inorder ++ p :: r.inorder := rfl
    rw [hin, List.length_append, List.length_cons] at hn
    obtain ⟨n, rfl⟩ : ∃ m, n = m + 1 := ⟨n - 1, by omega⟩
    show descend s .right (n + 1) p = _
    rw [descend, hr, hin]
    by_cases hne : r = .nil
    · subst hne
      simp
    · rw [if_pos (ptr_ne_zero hR hne), descend_right hR hne (by omega),
        lastPtr_append (List.cons_ne_nil _ _),
        show p :: r.inorder = [p] ++ r.inorder from rfl, lastPtr_append (inorder_ne_nil hne)]

theorem climb_left : ∀ {K : Ctx ℕ} {t : CTree ℕ} {n : ℕ}, At s K t → t ≠ .nil → K.length < n →
    climb s .left n (ptr t) = some (lastPtr K.before)
  | K, t, 0, _, _, hn => absurd hn (by omega)
  | K, t, n + 1, h, hne, hn => by
    have hpar : s.rbParent (ptr t) = top K := by
      unfold State.rbParent
      rw [rep_color h.tree hne, pcParent_or (top_aligned h.ctx)]
    rw [climb]
    simp only [hpar]
    cases K with
    | nil => simp [Ctx.before]
    | cons f K =>
      obtain ⟨hp, -, hc1, hc2, hsib, -⟩ := h.ctx
      rw [top_cons]
      cases hd : f.dir with
      | left =>
        rw [hd] at hc1
        rw [hc1, if_pos ⟨hp.1, rfl⟩]
        have hup := at_cons.mp h
        have hrec := climb_left (n := n) hup (by cases f.dir <;> simp [CTree.mk])
          (by simp only [List.length_cons] at hn; omega)
        rw [ptr_mk] at hrec
        rw [hrec, Ctx.before, hd]
      | right =>
        rw [hd] at hc2
        have hc2' : s.child .left f.ptr = ptr f.sib := hc2
        have hno : ptr t ≠ ptr f.sib := by
          intro heq
          have hnd := (at_cons.mp h).nodup
          simp only [Ctx.nodup_around, CTree.inorder_mk, nodup_ord] at hnd
          have h0 := ptr_ne_zero h.tree hne
          exact hnd.1.2.2.2.2 (ptr_mem h0) (heq ▸ ptr_mem (heq ▸ h0))
        rw [hc2', if_neg (fun hx => hno hx.2), Ctx.before, hd]
        simp only
        rw [← List.append_assoc, lastPtr_concat]

/-- `RB_EMPTY_NODE` does not hold of a node of a tree: its word is not its own address. -/
theorem not_empty_node (h : TreeOf s t) {n : ℕ} (hn : n ∈ t.inorder) : s.parentColor n ≠ n := by
  obtain ⟨K, c, l, r, rfl⟩ := Ctx.exists_fill hn
  have hat := at_iff.mpr h
  obtain ⟨hadr, hnpc, -⟩ := hat.tree
  intro heq
  have hpar : pcParent n = top K := by
    rw [← heq, hnpc, pcParent_or (top_aligned hat.ctx)]
  have hn4 : pcParent n = n := by unfold pcParent; have := hadr.2; omega
  have hmem : n ∈ (CTree.node c l n r).inorder := by simp [CTree.inorder]
  exact hat.ne_top hmem (hn4.symm.trans hpar)

theorem rbPrev_at {c : Color} {l r : CTree ℕ} {n fuel : ℕ} (h : At s K (.mk .left c l n r))
    (hf : (K.around (CTree.mk .left c l n r).inorder).length < fuel) :
    rbPrev fuel s n = some (lastPtr (K.before ++ l.inorder)) := by
  obtain ⟨-, -, hnl, -, hl, -⟩ := rep_mk.mp h.tree
  have hlen := (Ctx.around_perm K (CTree.mk .left c l n r).inorder).length_eq
  rw [List.length_append, CTree.inorder_mk, (ord_perm _ _ _ _).length_eq, List.length_cons,
    List.length_append] at hlen
  have hself : s.parentColor n ≠ n := by
    refine not_empty_node (at_iff.mp h) ?_
    rw [Ctx.inorder_fill, Ctx.mem_around]
    exact Or.inl (by simp [mem_ord])
  rw [CTree.inorder_mk] at hf
  unfold rbPrev rbNeighbour
  rw [if_neg hself, hnl]
  by_cases hne : l = .nil
  · subst hne
    have hK := Ctx.length_le_around K (ord .left [] n r.inorder)
    simp only [CTree.inorder_nil] at hf
    have hc := climb_left (n := fuel) h (by simp [CTree.mk]) (by omega)
    rw [ptr_mk] at hc
    simpa using hc
  · rw [if_pos (ptr_ne_zero hl hne), lastPtr_append (inorder_ne_nil hne)]
    exact descend_right hl hne (by omega)

/-- **The predecessor.** -/
theorem rbPrev_spec {L M : List ℕ} {n : ℕ} (fuel : ℕ) (h : TreeOf s t)
    (hin : t.inorder = L ++ n :: M) (hf : t.inorder.length < fuel) : rbPrev fuel s n = some (lastPtr L) := by
  obtain ⟨K, c, l, r, rfl⟩ := Ctx.exists_fill (t := t) (x := n) (by rw [hin]; simp)
  have hnd := h.nodup
  rw [Ctx.inorder_fill, Ctx.around_eq] at hin
  have hin' : (K.before ++ l.inorder) ++ n :: (r.inorder ++ K.after) = L ++ n :: M := by
    rw [← hin]
    simp [CTree.inorder]
  rw [Ctx.inorder_fill] at hf
  rw [rbPrev_at (at_iff.mpr h) hf]
  -- the node occurs once, so what stands before it is determined
  rw [Ctx.inorder_fill, Ctx.around_eq, hin] at hnd
  rw [List.nodup_append] at hnd
  have hL : n ∉ L := fun hx => hnd.2.2 n hx n (by simp) rfl
  have hM : n ∉ M := (List.nodup_cons.mp hnd.2.1).1
  rw [((List.append_cons_inj_of_notMem hL hM).mp hin'.symm).1]

/-! ### The successor of the first node -/

theorem descend_left : ∀ {t : CTree ℕ} {par n : ℕ}, Rep s par t → t ≠ .nil →
    t.inorder.length ≤ n → descend s .left n (ptr t) = some (t.inorder.headD 0)
  | .nil, _, _, _, h, _ => absurd rfl h
  | .node c l p r, par, n, ⟨hp, _, hl, _, hL, _⟩, _, hn => by
    have hin : (CTree.node c l p r).inorder = l.inorder ++ p :: r.inorder := rfl
    rw [hin, List.length_append, List.length_cons] at hn
    obtain ⟨n, rfl⟩ : ∃ m, n = m + 1 := ⟨n - 1, by omega⟩
    show descend s .left (n + 1) p = _
    rw [descend, hl, hin]
    by_cases hne : l = .nil
    · subst hne
      simp
    · rw [if_pos (ptr_ne_zero hL hne), descend_left hL hne (by omega)]
      obtain ⟨x, L, hx⟩ := List.exists_cons_of_ne_nil (inorder_ne_nil hne)
      rw [hx]
      rfl

/-- **`rb_next` of the first node** is the second one, `NULL` if there is none. -/
theorem rbNext_first {M : List ℕ} {n fuel : ℕ} (h : TreeOf s t) (hin : t.inorder = n :: M)
    (hf : t.inorder.length < fuel) : rbNext fuel s n = some (M.headD 0) := by
  have hself := not_empty_node h (n := n) (by rw [hin]; simp)
  obtain ⟨K, c, l, r, rfl⟩ := Ctx.exists_fill (t := t) (x := n) (by rw [hin]; simp)
  have hnd := h.nodup
  have hat : At s K (.node c l n r) := at_iff.mpr h
  obtain ⟨hn, -, -, hnr, -, hr⟩ := hat.tree
  rw [Ctx.inorder_fill] at hin hnd hf
  rw [hin] at hnd
  have hlen := congrArg List.length hin
  have hlenr : r.inorder.length ≤ fuel := by
    rw [Ctx.length_around] at hf
    simp only [CTree.inorder, List.length_append, List.length_cons] at hf
    omega
  have hpre : K.before = [] ∧ l.inorder = [] ∧ M = r.inorder ++ K.after := by
    have heq : (K.before ++ l.inorder) ++ n :: (r.inorder ++ K.after) = [] ++ n :: M := by
      rw [List.nil_append, ← hin, Ctx.around_eq]
      simp [CTree.inorder]
    obtain ⟨h1, h2⟩ := (List.append_cons_inj_of_notMem (by simp)
      (List.nodup_cons.mp hnd).1).mp heq.symm
    obtain ⟨h3, h4⟩ := List.append_eq_nil_iff.mp h1.symm
    exact ⟨h3, h4, h2.2⟩
  obtain ⟨hK, -, rfl⟩ := hpre
  unfold rbNext rbNeighbour
  rw [if_neg hself, hnr]
  by_cases hne : r = .nil
  · subst hne
    obtain ⟨fuel, rfl⟩ : ∃ m, fuel = m + 1 := ⟨fuel - 1, by omega⟩
    have hpar : s.rbParent n = top K := by
      unfold State.rbParent
      rw [hat.tree.2.1, pcParent_or (top_aligned hat.ctx)]
    rw [if_neg (by simp), climb]
    simp only [hpar]
    cases K with
    | nil => simp [Ctx.after]
    | cons f K =>
      have hd : f.dir = .left := by
        cases hd : f.dir with
        | left => rfl
        | right => simp [Ctx.before, hd] at hK
      obtain ⟨-, -, -, hc2, -, -⟩ := hat.ctx
      rw [hd] at hc2
      have hno : n ≠ ptr f.sib := by
        intro heq
        have hnd' := (at_cons.mp hat).nodup
        simp only [Ctx.nodup_around, CTree.inorder_mk, nodup_ord] at hnd'
        exact hnd'.1.2.2.2.2 (by simp [CTree.inorder]) (heq ▸ ptr_mem (heq ▸ hn.1))
      rw [if_neg fun hx => hno (hx.2.trans hc2)]
      simp [Ctx.after, hd]
  · rw [if_pos (ptr_ne_zero hr hne)]
    have hd := descend_left hr hne hlenr
    obtain ⟨x, L, hx⟩ := List.exists_cons_of_ne_nil (inorder_ne_nil hne)
    rw [hx] at hd ⊢
    exact hd

/-! ### Fuel: more of it does not change what a search returns -/

theorem descend_mono {d : Dir} : ∀ {n m : ℕ} {p r : ℕ}, n ≤ m → descend s d n p = some r →
    descend s d m p = some r
  | 0, _, _, _, _, h => by cases h
  | n + 1, 0, _, _, hle, _ => absurd hle (by omega)
  | n + 1, m + 1, p, r, hle, h => by
    rw [descend] at h ⊢
    split_ifs at h ⊢
    · exact descend_mono (by omega) h
    · exact h

theorem climb_mono {d : Dir} : ∀ {n m : ℕ} {p r : ℕ}, n ≤ m → climb s d n p = some r →
    climb s d m p = some r
  | 0, _, _, _, _, h => by cases h
  | n + 1, 0, _, _, hle, _ => absurd hle (by omega)
  | n + 1, m + 1, p, r, hle, h => by
    rw [climb] at h ⊢
    split_ifs at h ⊢
    · exact climb_mono (by omega) h
    · exact h

theorem rbPrev_mono {n m p r : ℕ} (hle : n ≤ m) (h : rbPrev n s p = some r) :
    rbPrev m s p = some r := by
  unfold rbPrev rbNeighbour at h ⊢
  split_ifs at h ⊢
  · exact h
  · exact descend_mono hle h
  · exact climb_mono hle h

/-- What a call of `rb_prev` that returned has found. -/
theorem rbPrev_result {L M : List ℕ} {n fuel r : ℕ} (h : TreeOf s t)
    (hin : t.inorder = L ++ n :: M) (hr : rbPrev fuel s n = some r) : r = lastPtr L := by
  have hspec := rbPrev_spec (fuel + t.inorder.length + 1) h hin (by omega)
  rw [rbPrev_mono (by omega) hr] at hspec
  exact Option.some.inj hspec

end HardStack.Rbtree.Neighbour
