import HardStack.IntervalTree.Run

/-! # The iterators

`interval_tree_subtree_search` finds the first node of a subtree that meets the range, and
`interval_tree_iter_next` the first one after a node. Both look for the first node whose last offset
is not before the range; if that node starts after the range, so does everything behind it. The loop
over both visits exactly the nodes that meet the range, in order. -/

namespace HardStack.IntervalTree.Iterate

open HardStack.Lib.RbTree HardStack.Lib.SubtreeMax
open HardStack.Rbtree.Model HardStack.Rbtree.Layout HardStack.Rbtree.Neighbour
open HardStack.IntervalTree.Model HardStack.IntervalTree.Augment HardStack.IntervalTree.Run

variable {A : Nodes} {s : State SubtreeLast} {t : CTree ℕ} {K : Ctx ℕ} {start last : ℕ}

/-- The interval of the node meets the range. -/
def Meets (A : Nodes) (start last : ℕ) (node : ℕ) : Bool :=
  decide (startPgoff A node ≤ last) && decide (start ≤ lastPgoff A node)

theorem not_meets_of_last {L : List ℕ} (h : ∀ x ∈ L, lastPgoff A x < start) :
    ∀ x ∈ L, Meets A start last x = false := by
  intro x hx
  have := h x hx
  simp only [Meets, Bool.and_eq_false_iff, decide_eq_false_iff_not]
  omega

theorem not_meets_of_start {L : List ℕ} (h : ∀ x ∈ L, last < startPgoff A x) :
    ∀ x ∈ L, Meets A start last x = false := by
  intro x hx
  have := h x hx
  simp only [Meets, Bool.and_eq_false_iff, decide_eq_false_iff_not]
  omega

/-- The first node of the sequence that meets the range, `NULL` for none. -/
def firstMeet (A : Nodes) (start last : ℕ) (L : List ℕ) : ℕ := (L.find? (Meets A start last)).getD 0

theorem firstMeet_append {L M : List ℕ} (h : ∀ x ∈ L, Meets A start last x = false) :
    firstMeet A start last (L ++ M) = firstMeet A start last M := by
  unfold firstMeet
  rw [List.find?_append, List.find?_eq_none.mpr (by simpa using h)]
  rfl

theorem firstMeet_none {L : List ℕ} (h : ∀ x ∈ L, Meets A start last x = false) :
    firstMeet A start last L = 0 := by
  unfold firstMeet
  rw [List.find?_eq_none.mpr (by simpa using h)]
  rfl

/-- What is behind a node that reaches into the range and yet does not meet it. -/
theorem firstMeet_left {L M : List ℕ} (hL : ∃ x ∈ L, start ≤ lastPgoff A x)
    (hsort : (L ++ M).Pairwise fun a b => startPgoff A a ≤ startPgoff A b) :
    firstMeet A start last (L ++ M) = firstMeet A start last L := by
  unfold firstMeet
  rw [List.find?_append]
  rcases hf : L.find? (Meets A start last) with _ | y
  · -- no node of `L` meets the range: one of them starts after it, and so does all of `M`
    obtain ⟨x, hx, hxl⟩ := hL
    have hno := List.find?_eq_none.mp hf x hx
    simp only [Meets, Bool.and_eq_true, decide_eq_true_eq, not_and, not_le] at hno
    have hM : ∀ y ∈ M, Meets A start last y = false := by
      refine not_meets_of_start fun y hy => ?_
      have h1 := (List.pairwise_append.mp hsort).2.2 x hx y hy
      omega
    rw [List.find?_eq_none.mpr (by simpa using hM)]
    rfl
  · rfl

theorem exists_last_of_le {T : CTree ℕ} (hne : T ≠ .nil) (h : start ≤ maxOf (lastPgoff A) T) :
    ∃ x ∈ T.inorder, start ≤ lastPgoff A x := by
  obtain ⟨x, hx, hm⟩ := exists_eq_maxOf (f := lastPgoff A) hne
  exact ⟨x, hx, by rw [hm]; exact h⟩

theorem last_lt_of_lt {T : CTree ℕ} (h : maxOf (lastPgoff A) T < start) :
    ∀ x ∈ T.inorder, lastPgoff A x < start := fun _ hx => (le_maxOf hx).trans_lt h

/-- The test before the search goes into a subtree. -/
theorem into_test (start : ℕ) {T : CTree ℕ} {par : ℕ} (h : Rep s par T) (hT : Exact (lastPgoff A) s.aug.last T) :
    (ptr T ≠ 0 ∧ start ≤ s.aug.last (ptr T)) ↔ T ≠ .nil ∧ start ≤ maxOf (lastPgoff A) T := by
  have he := entry_of_exact hT fun x hx => (addr_of_mem h hx).1
  by_cases hne : T = .nil
  · subst hne; simp
  · have h0 := ptr_ne_zero h hne
    rw [he.2 h0]
    simp [h0, hne]

theorem outside_of_not_into {T : CTree ℕ} (h : ¬ (T ≠ .nil ∧ start ≤ maxOf (lastPgoff A) T)) :
    ∀ x ∈ T.inorder, Meets A start last x = false := by
  by_cases hne : T = .nil
  · subst hne; simp
  · exact not_meets_of_last (last_lt_of_lt (not_le.mp fun hle => h ⟨hne, hle⟩))

/-- **The search** finds the first node of the subtree that meets the range. -/
theorem subtreeSearch_spec : ∀ {T : CTree ℕ} {par n : ℕ}, Rep s par T →
    Exact (lastPgoff A) s.aug.last T →
    (T.inorder.Pairwise fun a b => startPgoff A a ≤ startPgoff A b) → T ≠ .nil →
    T.inorder.length ≤ n →
    subtreeSearch A start last n s (ptr T) = some (firstMeet A start last T.inorder)
  | .nil, _, _, _, _, _, hne, _ => absurd rfl hne
  | .node c l p r, par, n, hrep, ⟨_, hl, hr⟩, hsort, _, hn => by
    obtain ⟨hp, -, hcl, hcr, hL, hR⟩ := hrep
    have hin : (CTree.node c l p r).inorder = l.inorder ++ p :: r.inorder := rfl
    rw [hin, List.length_append, List.length_cons] at hn
    rw [hin] at hsort ⊢
    obtain ⟨hsl, hspr, hlr⟩ := List.pairwise_append.mp hsort
    obtain ⟨hpr, hsr⟩ := List.pairwise_cons.mp hspr
    obtain ⟨n, rfl⟩ : ∃ m, n = m + 1 := ⟨n - 1, by omega⟩
    show subtreeSearch A start last (n + 1) s p = _
    rw [subtreeSearch]
    have hgl := into_test start hL hl
    have hgr := into_test start hR hr
    rw [← hcl] at hgl
    rw [← hcr] at hgr
    dsimp only
    by_cases hleft : l ≠ .nil ∧ start ≤ maxOf (lastPgoff A) l
    · rw [if_pos (hgl.mpr hleft), hcl, subtreeSearch_spec hL hl hsl hleft.1 (by omega),
        firstMeet_left (exists_last_of_le hleft.1 hleft.2) hsort]
    · rw [if_neg (fun h => hleft (hgl.mp h)), firstMeet_append (outside_of_not_into hleft)]
      by_cases h1 : startPgoff A p ≤ last
      · rw [if_pos h1]
        by_cases h2 : start ≤ lastPgoff A p
        · rw [if_pos h2]
          have hm : Meets A start last p = true := by simp [Meets, h1, h2]
          unfold firstMeet
          rw [List.find?_cons_of_pos hm]
          rfl
        · rw [if_neg h2]
          have hm : Meets A start last p = false := by simp [Meets, h2]
          have hcons : firstMeet A start last (p :: r.inorder) =
              firstMeet A start last r.inorder := firstMeet_append (L := [p]) (by simpa using hm)
          rw [hcons]
          by_cases hright : r ≠ .nil ∧ start ≤ maxOf (lastPgoff A) r
          · rw [if_pos (hgr.mpr hright), hcr, subtreeSearch_spec hR hr hsr hright.1 (by omega)]
          · rw [if_neg (fun h => hright (hgr.mp h)), firstMeet_none (outside_of_not_into hright)]
      · rw [if_neg h1, firstMeet_none]
        refine not_meets_of_start fun x hx => ?_
        rcases List.mem_cons.mp hx with rfl | hx
        · exact not_le.mp h1
        · exact (not_le.mp h1).trans_le (hpr x hx)

theorem iterFirst_spec {lm : Option ℕ} {fuel : ℕ} (h : TreeOf s t)
    (hex : Exact (lastPgoff A) s.aug.last t)
    (hsort : t.inorder.Pairwise fun a b => startPgoff A a ≤ startPgoff A b)
    (hlm : ∀ l ∈ lm, l = t.inorder.headD 0) (hf : t.inorder.length ≤ fuel) :
    iterFirst A start last fuel s lm = some (firstMeet A start last t.inorder) := by
  unfold iterFirst
  rw [h.root]
  by_cases hne : t = .nil
  · subst hne
    rw [if_pos ptr_nil]
    rfl
  · have h0 := ptr_ne_zero h.tree hne
    have he := (entry_of_exact hex fun x hx => (addr_of_mem h.tree hx).1).2 h0
    rw [if_neg h0, he]
    by_cases hlt : maxOf (lastPgoff A) t < start
    · rw [if_pos hlt, firstMeet_none (not_meets_of_last (last_lt_of_lt hlt))]
    · rw [if_neg hlt, subtreeSearch_spec h.tree hex hsort hne hf]
      split_ifs with hany
      · -- the first node starts after the range
        obtain ⟨l, hl, hlast⟩ : ∃ l ∈ lm, decide (last < startPgoff A l) = true := by
          cases lm with
          | none => cases hany
          | some l => exact ⟨l, rfl, hany⟩
        obtain ⟨x, M, hM⟩ := List.exists_cons_of_ne_nil (inorder_ne_nil hne)
        have hlx : l = x := by rw [hlm l hl, hM]; rfl
        rw [hlx, decide_eq_true_eq] at hlast
        rw [firstMeet_none (not_meets_of_start fun y hy => ?_)]
        rw [hM] at hy hsort
        rcases List.mem_cons.mp hy with rfl | hy
        · exact hlast
        · exact hlast.trans_le ((List.pairwise_cons.mp hsort).1 y hy)
      · rfl

/-! ### The next node -/

/-- Going up until coming from a left child: to the first node after the subtree. -/
theorem climb_right : ∀ {K : Ctx ℕ} {T : CTree ℕ} {n : ℕ}, At s K T → T ≠ .nil → K.length < n →
    (climb s .right n (ptr T) = some 0 ∧ K.after = []) ∨
    ∃ (f : Frame ℕ) (K' : Ctx ℕ) (X : CTree ℕ), climb s .right n (ptr T) = some f.ptr ∧
      K.after = f.ptr :: (f.sib.inorder ++ K'.after) ∧ K'.length < K.length ∧
      K.fill T = K'.fill (.mk .left f.color X f.ptr f.sib)
  | _, _, 0, _, _, hn => absurd hn (by omega)
  | [], T, n + 1, h, hne, _ => by
    refine Or.inl ⟨?_, rfl⟩
    have hpar : s.rbParent (ptr T) = 0 := by
      unfold State.rbParent
      rw [rep_color h.tree hne, pcParent_or (top_aligned h.ctx), top_nil]
    rw [climb]
    simp only [hpar]
    rw [if_neg (by simp)]
  | f :: K, T, n + 1, h, hne, hn => by
    have hpar : s.rbParent (ptr T) = f.ptr := by
      unfold State.rbParent
      rw [rep_color h.tree hne, pcParent_or (top_aligned h.ctx), top_cons]
    obtain ⟨hp, -, hc1, hc2, hsib, -⟩ := h.ctx
    rw [climb]
    simp only [hpar]
    cases hd : f.dir with
    | right =>
      rw [hd] at hc1
      rw [hc1, if_pos ⟨hp.1, rfl⟩]
      have hrec := climb_right (n := n) (at_cons.mp h) (by cases f.dir <;> simp [CTree.mk])
        (by simp only [List.length_cons] at hn; omega)
      rw [ptr_mk] at hrec
      have hafter : Ctx.after (f :: K) = Ctx.after K := by rw [Ctx.after, hd]
      rw [hafter]
      rcases hrec with hrec | ⟨g, K', X, h1, h2, h3, h4⟩
      · exact Or.inl hrec
      · exact Or.inr ⟨g, K', X, h1, h2, by simp only [List.length_cons]; omega, h4⟩
    | left =>
      rw [hd] at hc2
      have hno : ptr T ≠ ptr f.sib := by
        intro heq
        have hnd := (at_cons.mp h).nodup
        simp only [Ctx.nodup_around, CTree.inorder_mk, nodup_ord] at hnd
        have h0 := ptr_ne_zero h.tree hne
        exact hnd.1.2.2.2.2 (ptr_mem h0) (heq ▸ ptr_mem (heq ▸ h0))
      rw [if_neg fun hx => hno (hx.2.trans hc2)]
      refine Or.inr ⟨f, K, T, rfl, by rw [Ctx.after, hd], by simp, ?_⟩
      rw [← hd]
      rfl

/-- The nodes from `p` on are in order. -/
theorem sorted_from {c : Color} {l r : CTree ℕ} {p : ℕ}
    (h : (K.fill (.mk .left c l p r)).inorder.Pairwise
      fun a b => startPgoff A a ≤ startPgoff A b) :
    (p :: (r.inorder ++ K.after)).Pairwise fun a b => startPgoff A a ≤ startPgoff A b := by
  refine h.sublist ?_
  rw [Ctx.inorder_fill, Ctx.around_eq]
  have heq : (CTree.mk .left c l p r).inorder ++ K.after =
      l.inorder ++ p :: (r.inorder ++ K.after) := by simp [ord]
  rw [heq]
  exact (List.sublist_append_right _ _).trans (List.sublist_append_right _ _)

theorem iterNextLoop_spec : ∀ {n : ℕ} {K : Ctx ℕ} {c : Color} {l r : CTree ℕ} {p : ℕ},
    At s K (.mk .left c l p r) → Exact (lastPgoff A) s.aug.last (K.fill (.mk .left c l p r)) →
    ((K.fill (.mk .left c l p r)).inorder.Pairwise
      fun a b => startPgoff A a ≤ startPgoff A b) →
    K.length + (K.fill (.mk .left c l p r)).inorder.length < n →
    iterNextLoop A start last n s p (ptr r) = some (firstMeet A start last (r.inorder ++ K.after))
  | 0, _, _, _, _, _, _, _, _, hn => absurd hn (by omega)
  | n + 1, K, c, l, r, p, h, hex, hsort, hn => by
    obtain ⟨-, -, -, -, -, hr⟩ := rep_mk.mp h.tree
    obtain ⟨-, hxr, -⟩ := exact_node hex
    have hfrom := sorted_from hsort
    obtain ⟨-, hfrom⟩ := List.pairwise_cons.mp hfrom
    have hlen : r.inorder.length < (K.fill (.mk .left c l p r)).inorder.length := by
      rw [Ctx.inorder_fill, Ctx.length_around, CTree.inorder_mk, length_ord]
      omega
    have hg := into_test start hr hxr
    rw [iterNextLoop]
    by_cases hright : r ≠ .nil ∧ start ≤ maxOf (lastPgoff A) r
    · rw [if_pos (hg.mpr hright), subtreeSearch_spec hr hxr (List.pairwise_append.mp hfrom).1 hright.1
        (by omega), firstMeet_left (exists_last_of_le hright.1 hright.2) hfrom]
    · rw [if_neg fun h => hright (hg.mp h), firstMeet_append (outside_of_not_into hright)]
      have hclimb := climb_right (n := n) h (by simp [CTree.mk]) (by omega)
      rw [ptr_mk] at hclimb
      rcases hclimb with ⟨hc, hafter⟩ | ⟨f, K', X, hc, hafter, hK', hfill⟩
      · rw [hc, hafter]
        rfl
      · rw [hfill] at hex hsort hn
        have hat : At s K' (.mk .left f.color X f.ptr f.sib) :=
          at_iff.mpr (hfill ▸ at_iff.mp h)
        obtain ⟨hf, -, -, hcr, -, -⟩ := rep_mk.mp hat.tree
        have hcr' : s.child .right f.ptr = ptr f.sib := hcr
        have hfrom' := sorted_from hsort
        rw [hc, hafter]
        simp only [Option.bind_eq_bind, Option.bind_some]
        rw [if_neg hf.1]
        by_cases h1 : last < startPgoff A f.ptr
        · rw [if_pos h1, firstMeet_none]
          refine not_meets_of_start fun x hx => ?_
          rcases List.mem_cons.mp hx with rfl | hx
          · exact h1
          · exact h1.trans_le ((List.pairwise_cons.mp hfrom').1 x hx)
        · rw [if_neg h1]
          by_cases h2 : start ≤ lastPgoff A f.ptr
          · rw [if_pos h2]
            have hm : Meets A start last f.ptr = true := by simp [Meets, h2, not_lt.mp h1]
            unfold firstMeet
            rw [List.find?_cons_of_pos hm]
            rfl
          · have hm : Meets A start last f.ptr = false := by simp [Meets, h2]
            rw [if_neg h2, hcr', iterNextLoop_spec hat hex hsort (by omega)]
            exact congrArg some (firstMeet_append (L := [f.ptr]) (by simpa using hm)).symm

/-- **`interval_tree_iter_next`** finds the first node after `p` that meets the range. -/
theorem iterNext_spec {L M : List ℕ} {p fuel : ℕ} (h : TreeOf s t)
    (hex : Exact (lastPgoff A) s.aug.last t)
    (hsort : t.inorder.Pairwise fun a b => startPgoff A a ≤ startPgoff A b)
    (hin : t.inorder = L ++ p :: M) (hf : 2 * t.inorder.length < fuel) :
    iterNext A start last fuel s p = some (firstMeet A start last M) := by
  obtain ⟨K, c, l, r, rfl⟩ := Ctx.exists_fill (t := t) (x := p) (by rw [hin]; simp)
  have hat : At s K (.mk .left c l p r) := at_iff.mpr h
  have hcr : s.child .right p = ptr r := (rep_mk.mp hat.tree).2.2.2.1
  have hlen := Ctx.length_le_around K (CTree.mk .left c l p r).inorder
  rw [← Ctx.inorder_fill] at hlen
  have hmk : K.fill (.node c l p r) = K.fill (.mk .left c l p r) := rfl
  rw [hmk] at hin hex hsort hf
  unfold iterNext
  rw [hcr, iterNextLoop_spec hat hex hsort (by omega)]
  -- the node occurs once, so what stands behind it is determined
  have hnd := h.nodup
  rw [hmk, hin, List.nodup_append] at hnd
  have hL : p ∉ L := fun hx => hnd.2.2 p hx p (by simp) rfl
  have hM : p ∉ M := (List.nodup_cons.mp hnd.2.1).1
  have heq : (K.before ++ l.inorder) ++ p :: (r.inorder ++ K.after) = L ++ p :: M := by
    rw [← hin, Ctx.inorder_fill, Ctx.around_eq]
    simp [ord]
  rw [((List.append_cons_inj_of_notMem hL hM).mp heq.symm).2.2]

/-! ### The loop over a range -/

theorem foreachLoop_spec {fuel : ℕ} (h : TreeOf s t) (hex : Exact (lastPgoff A) s.aug.last t)
    (hsort : t.inorder.Pairwise fun a b => startPgoff A a ≤ startPgoff A b)
    (hf : 2 * t.inorder.length < fuel) : ∀ {M L : List ℕ} {n : ℕ}, t.inorder = L ++ M →
    M.length < n → foreachLoop A start last fuel s n (firstMeet A start last M) =
      some (M.filter (Meets A start last))
  | _, _, 0, _, hn => absurd hn (by omega)
  | [], _, n + 1, _, _ => rfl
  | x :: M, L, n + 1, hin, hn => by
    have hin' : t.inorder = (L ++ [x]) ++ M := by rw [hin, List.append_assoc]; rfl
    rw [List.length_cons] at hn
    by_cases hm : Meets A start last x = true
    · have hx : firstMeet A start last (x :: M) = x := by
        unfold firstMeet
        rw [List.find?_cons_of_pos hm]
        rfl
      have h0 : x ≠ 0 := (addr_of_mem h.tree (by rw [hin]; simp)).1
      rw [hx, foreachLoop, if_neg h0, iterNext_spec h hex hsort hin hf]
      simp only [Option.bind_eq_bind, Option.bind_some]
      rw [foreachLoop_spec h hex hsort hf hin' (by omega), List.filter_cons_of_pos hm]
      rfl
    · have hx : firstMeet A start last (x :: M) = firstMeet A start last M :=
        firstMeet_append (L := [x]) (by simpa using hm)
      rw [hx, List.filter_cons_of_neg hm]
      exact foreachLoop_spec h hex hsort hf hin' (by omega)

/-- What the iterators rely on: the order, the table and `rb_leftmost`, but not the colours. -/
structure Searchable (A : Nodes) (root : RootCached) (t : CTree ℕ) : Prop where
  tree : TreeOf root.rbRoot t
  sorted : t.inorder.Pairwise fun a b => startPgoff A a ≤ startPgoff A b
  exact : Exact (lastPgoff A) root.rbRoot.aug.last t
  leftmost : root.rbLeftmost = t.inorder.headD 0

theorem searchable_of_wellFormed {root : RootCached} (h : WellFormed A root t) :
    Searchable A root t := ⟨h.tree, h.sorted, h.exact, h.leftmost⟩

/-- **The loop over a range** visits the nodes that meet it, in order, with or without the test of
`rb_leftmost`. -/
theorem foreach_spec {root : RootCached} {lm : Option ℕ} {fuel : ℕ} (h : Searchable A root t)
    (hlm : lm = none ∨ lm = some root.rbLeftmost) (hf : 2 * t.inorder.length < fuel) :
    foreach A start last fuel root.rbRoot lm = some (t.inorder.filter (Meets A start last)) := by
  have hlm' : ∀ l ∈ lm, l = t.inorder.headD 0 := by
    rintro l hl
    rcases hlm with rfl | rfl
    · cases hl
    · rw [← Option.some.inj hl, h.leftmost]
  unfold foreach
  rw [iterFirst_spec h.tree h.exact h.sorted hlm' (by omega)]
  simp only [Option.bind_eq_bind, Option.bind_some]
  exact foreachLoop_spec h.tree h.exact h.sorted hf (L := []) rfl (by omega)

/-- The condition of the search is that the two intervals have a common offset. -/
theorem meets_iff {node : ℕ} (hle : start ≤ last) (hn : startPgoff A node ≤ lastPgoff A node) :
    Meets A start last node = true ↔
      (Set.Icc (startPgoff A node) (lastPgoff A node) ∩ Set.Icc start last).Nonempty := by
  simp only [Meets, Bool.and_eq_true, decide_eq_true_eq]
  constructor
  · rintro ⟨h1, h2⟩
    exact ⟨max start (startPgoff A node), ⟨by omega, by omega⟩, ⟨by omega, by omega⟩⟩
  · rintro ⟨x, ⟨h1, h2⟩, h3, h4⟩
    exact ⟨h1.trans h4, h3.trans h2⟩

/-- **The iterators are exact.** The first call and then one call after the other give the nodes that
meet the range, in the order of the tree and each once, and then `NULL`. -/
theorem foreach_visits {root : RootCached} {lm : Option ℕ} {fuel : ℕ} (h : Searchable A root t)
    (hlm : lm = none ∨ lm = some root.rbLeftmost) (hf : 2 * t.inorder.length < fuel) :
    ∃ visited, foreach A start last fuel root.rbRoot lm = some visited ∧
      visited.Sublist t.inorder ∧ visited.Nodup ∧
      ∀ x, x ∈ visited ↔ x ∈ t.inorder ∧ startPgoff A x ≤ last ∧ start ≤ lastPgoff A x := by
  refine ⟨_, foreach_spec h hlm hf, List.filter_sublist, h.tree.nodup.filter _, fun x => ?_⟩
  rw [List.mem_filter]
  simp only [Meets, Bool.and_eq_true, decide_eq_true_eq]

/-- Two of three areas reach the offset 5. -/
theorem foreach_visits_three : ∃ root t visited, t.inorder = [4, 12, 8] ∧
    Searchable threeAreas root t ∧
    foreach threeAreas 5 5 7 root.rbRoot (some root.rbLeftmost) = some visited ∧
    visited.Sublist [4, 12, 8] ∧ visited.Nodup ∧
    ∀ x, x ∈ visited ↔ x ∈ [4, 12, 8] ∧ startPgoff threeAreas x ≤ 5 ∧ 5 ≤ lastPgoff threeAreas x := by
  have h0 := (start_holds threeAreas zeroMemory).wellFormed
  obtain ⟨r1, t1, -, hw1, hin1⟩ := intervalTreeInsert_spec 8 9 h0
    ⟨by decide, by decide⟩ (by simp) (by simp)
  have hs1 : t1.inorder = [8] := hin1
  obtain ⟨r2, t2, -, hw2, hin2⟩ := intervalTreeInsert_spec 4 9 hw1
    ⟨by decide, by decide⟩ (by rw [hs1]; decide) (by rw [hs1]; decide)
  have hs2 : t2.inorder = [4, 8] := by rw [hin2, hs1]; decide
  obtain ⟨r3, t3, -, hw3, hin3⟩ := intervalTreeInsert_spec 12 9 hw2
    ⟨by decide, by decide⟩ (by rw [hs2]; decide) (by rw [hs2]; decide)
  have hs3 : t3.inorder = [4, 12, 8] := by rw [hin3, hs2]; decide
  have h3 := searchable_of_wellFormed hw3
  obtain ⟨visited, hv, hvisits⟩ := @foreach_visits threeAreas t3 5 5 r3 (some r3.rbLeftmost) 7 h3
    (Or.inr rfl) (by rw [hs3]; decide)
  rw [hs3] at hvisits
  exact ⟨r3, t3, visited, hs3, h3, hv, hvisits⟩

end HardStack.IntervalTree.Iterate
