import HardStack.Bsfs.Remove

/-! # A subtree that has been removed

The rounds of `__bsfs_remove` take a subtree down from its first node in postorder to its root. So a
removal is safe if and only if every node of the subtree has time stamps where its parent has some. -/

namespace HardStack.Bsfs.Removed

open HardStack.Bsfs.Model HardStack.Bsfs.Walk HardStack.Bsfs.Put HardStack.Bsfs.Remove
open HardStack.Lib.Forest HardStack.Lib.RefCount
open HardStack.Rbtree.Layout (TreeOf)

variable {s₀ s s' : State} {held held' : ℕ → ℕ} {F F₀ F' : Finset ℕ} {r kn x y q n fuel par : ℕ}
  {rank now : ℕ → ℕ} {c c' c₀ f f' : Forest ℕ} {A L L₀ : List ℕ}

/-! ### Taking a leaf away -/

/-- The node is there before and after, with the same parent and type. -/
def Stays (s s' : State) (y : ℕ) : Prop := ∃ node node', s.heap y = some node ∧ s'.heap y = some node' ∧
  node'.parent = node.parent ∧ node'.type = node.type

theorem sorted_congr {d : ℕ} (h : Sorted s d L) (hsib : s'.siblings d = s.siblings d) : Sorted s' d L := by
  unfold Sorted
  rw [hsib]
  exact h

theorem rep_frame : ∀ {f : Forest ℕ} {par : ℕ}, (∀ d ∈ f.nodes, s'.siblings d = s.siblings d) →
    (∀ y ∈ f.nodes, Stays s s' y) → Rep s par f → Rep s' par f
  | .nil, _, _, _, _ => trivial
  | .cons p c rest, par, hsib, hstays, ⟨⟨hne, node, hnode, hpar, hdir, hfile⟩, hc, hr⟩ => by
    have hc' : ∀ d ∈ c.nodes, d ∈ (Forest.cons p c rest).nodes := fun d hd =>
      List.mem_cons_of_mem _ (List.mem_append_left _ hd)
    have hr' : ∀ d ∈ rest.nodes, d ∈ (Forest.cons p c rest).nodes := fun d hd =>
      List.mem_cons_of_mem _ (List.mem_append_right _ hd)
    obtain ⟨node₁, node', hnode₁, hnode', hpar', htype'⟩ := hstays p List.mem_cons_self
    rw [hnode] at hnode₁
    cases hnode₁
    refine ⟨⟨hne, node', hnode', hpar'.trans hpar, fun ht => ?_, fun ht => hfile (htype' ▸ ht)⟩,
      rep_frame (fun d hd => hsib d (hc' d hd)) (fun y hy => hstays y (hc' y hy)) hc,
      rep_frame (fun d hd => hsib d (hr' d hd)) (fun y hy => hstays y (hr' y hy)) hr⟩
    exact sorted_congr (hdir (htype' ▸ ht)) (hsib p List.mem_cons_self)

theorem popLeaf_ne_nil (h : Forest.PopLeaf par f x q f') : f ≠ .nil := by
  cases h with
  | here => exact nofun
  | deeper => exact nofun

theorem NodeRep.dir (h : NodeRep s par kn c) (hne : c ≠ .nil) : Sorted s kn c.roots := by
  obtain ⟨-, node, -, -, hdir, hfile⟩ := h
  by_cases htype : node.type = .dir
  · exact hdir htype
  · exact absurd (hfile htype) hne

/-- **The leaf leaves its parent**, and what is left of the forest is held by the memory. -/
theorem rep_pop (h : Forest.PopLeaf par f x q f') : Rep s par f → Sorted s par f.roots →
    (par :: f.nodes).Nodup → NodeRep s q x .nil ∧ (q = par ∨ q ∈ f'.nodes) ∧ ∃ L, Sorted s q (x :: L) ∧
      (x :: L).length ≤ f.postorder.length ∧ ∀ s', (∀ d, d ≠ q → s'.siblings d = s.siblings d) → Sorted s' q L → (∀ y ∈ f'.nodes, Stays s s' y) →
        Rep s' par f' ∧ Sorted s' par f'.roots := by
  induction h with
  | here par x rest =>
    rintro ⟨hx, -, hr⟩ hsorted hnd
    have hpar : ∀ d ∈ rest.nodes, d ≠ par := by
      rintro d hd rfl
      exact (List.nodup_cons.mp hnd).1 (List.mem_cons_of_mem _ (List.mem_append_right _ hd))
    exact ⟨hx, Or.inl rfl, rest.roots, hsorted,
      (Forest.roots_sublist (Forest.cons x .nil rest)).length_le, fun s' hsib hsorted' hstays =>
      ⟨rep_frame (fun d hd => hsib d (hpar d hd)) hstays hr, hsorted'⟩⟩
  | @deeper p x q c c' par rest h ih =>
    rintro ⟨hp, hc, hr⟩ hsorted hnd
    obtain ⟨hpar, hnd⟩ := List.nodup_cons.mp hnd
    have hsub : ∀ d ∈ c'.nodes, d ∈ c.nodes := fun d hd =>
      h.nodes_perm.mem_iff.mpr (List.mem_cons_of_mem _ hd)
    have hndc : (p :: c.nodes).Nodup := by
      refine hnd.sublist ?_
      rw [Forest.nodes]
      exact (List.sublist_append_left c.nodes rest.nodes).cons_cons p
    obtain ⟨hx, hq, L, hL, hlen, hafter⟩ := ih hc (NodeRep.dir hp (popLeaf_ne_nil h)) hndc
    have hqmem : q ∈ p :: c.nodes := by
      rcases hq with rfl | hq
      · exact List.mem_cons_self
      · exact List.mem_cons_of_mem _ (hsub q hq)
    have hqnodes : q ∈ (Forest.cons p c rest).nodes := by
      rw [Forest.nodes, ← List.cons_append]
      exact List.mem_append_left _ hqmem
    refine ⟨hx, Or.inr ?_, L, hL, hlen.trans ?_, fun s' hsib hsorted' hstays => ?_⟩
    · rcases hq with rfl | hq
      · exact List.mem_cons_self
      · exact List.mem_cons_of_mem _ (List.mem_append_left _ hq)
    · rw [Forest.postorder, List.length_append]
      omega
    · obtain ⟨hrep', hroots'⟩ := hafter s' hsib hsorted' fun y hy =>
        hstays y (List.mem_cons_of_mem _ (List.mem_append_left _ hy))
      have hqr : ∀ d ∈ rest.nodes, d ≠ q := by
        rintro d hd rfl
        rw [Forest.nodes, ← List.cons_append] at hnd
        exact (List.nodup_append.mp hnd).2.2 d hqmem d hd rfl
      obtain ⟨node, node', hnode, hnode', hpar', htype'⟩ := hstays p List.mem_cons_self
      obtain ⟨hne, node₁, hnode₁, hpar₁, -, hfile⟩ := hp
      rw [hnode] at hnode₁
      cases hnode₁
      refine ⟨⟨⟨hne, node', hnode', hpar'.trans hpar₁, fun _ => hroots', fun ht => ?_⟩, hrep', ?_⟩, ?_⟩
      · exact absurd (hfile (htype' ▸ ht)) (popLeaf_ne_nil h)
      · exact rep_frame (fun d hd => hsib d (hqr d hd))
          (fun y hy => hstays y (List.mem_cons_of_mem _ (List.mem_append_right _ hy))) hr
      · exact sorted_congr hsorted (hsib par fun he => hpar (he ▸ hqnodes))

/-! ### Between the rounds -/

/-- The references that are held from outside when those of the list have been dropped. -/
def heldAfter (held : ℕ → ℕ) (A : List ℕ) (x : ℕ) : ℕ := held x - A.count x

/-- The nodes, after the nodes of the list `A` have been removed from the subtree with the nodes `T`; those
in `F` are still there. -/
structure Kept (s₀ : State) (held : ℕ → ℕ) (F₀ : Finset ℕ) (T A : List ℕ) (F : Finset ℕ) (s : State) : Prop where
  counted : Counted s₀ (heldAfter held A) F 0 s
  subset : F ⊆ F₀
  nodes : ∀ y ∈ F, ∃ node₀ node, s₀.heap y = some node₀ ∧ s.heap y = some node ∧ Alike node₀ node ∧
    (y ∈ A → node.active = BS_DEACTIVATED_BIAS) ∧ (y ∉ T → node.active = node₀.active)
  idle : ∀ y ∈ F₀, y ∉ F → heldAfter held A y = 0
  gone : ∀ y ∈ F₀, y ∉ F → s.heap y = none ∧ s.inoIdr (inoOf s₀ y) = 0
  none : ∀ y, y ∉ F₀ → s.heap y = none

theorem heldAfter_concat (hx : x ∉ A) (hheld : 0 < held x) (y : ℕ) :
    heldAfter held A y = heldAfter held (A ++ [x]) y + if y = x then 1 else 0 := by
  unfold heldAfter
  rw [List.count_append, List.count_singleton]
  by_cases hy : y = x
  · subst hy
    rw [List.count_eq_zero_of_not_mem hx, beq_self_eq_true, if_pos rfl, if_pos rfl]
    omega
  · rw [if_neg hy, if_neg (by simpa using Ne.symm hy)]
    rfl

theorem Kept.rounded {T : List ℕ} (h : Kept s₀ held F₀ T A F s)
    (hr : Rounded s₀ (heldAfter held (A ++ [x])) x s F s' F') (hx : x ∈ T) :
    Kept s₀ held F₀ T (A ++ [x]) F' s' where
  counted := hr.counted
  subset := hr.subset.trans h.subset
  nodes y hy := by
    obtain ⟨node₀, node, hnode₀, hnode, halike, hA, hT⟩ := h.nodes y (hr.subset hy)
    obtain ⟨node₁, node', hnode₁, hnode', halike', hactive, hself⟩ := hr.kept y hy
    rw [hnode] at hnode₁
    cases hnode₁
    refine ⟨node₀, node', hnode₀, hnode', halike.trans halike', fun hmem => ?_, fun hnot => ?_⟩
    · by_cases hyx : y = x
      · exact hself hyx
      · rcases List.mem_append.mp hmem with hmem | hmem
        · exact (hactive hyx).trans (hA hmem)
        · exact absurd (List.mem_singleton.mp hmem) hyx
    · exact (hactive fun he => hnot (he ▸ hx)).trans (hT hnot)
  idle y hy hy' := by
    by_cases hyF : y ∈ F
    · exact hr.idle y hyF hy'
    · have hzero := h.idle y hy hyF
      unfold heldAfter at hzero ⊢
      rw [List.count_append]
      omega
  gone y hy hy' := by
    by_cases hyF : y ∈ F
    · exact hr.gone y hyF hy'
    · obtain ⟨hheap, hidr⟩ := h.gone y hy hyF
      exact ⟨hr.none y hyF hheap, hr.zero _ hidr⟩
  none y hy := hr.none y (fun hyF => hy (h.subset hyF)) (h.none y hy)

/-- **A hierarchy with a subtree to remove**: every node is activated, the base references are among those
`held` from outside of the hierarchy, and the node `kn` stands in the list `L₀` of its parent. -/
structure Tree (s₀ : State) (F₀ : Finset ℕ) (r : ℕ) (rank held : ℕ → ℕ) (kn : ℕ) (c₀ : Forest ℕ)
    (L₀ : List ℕ) : Prop where
  hierarchy : Hierarchy s₀ F₀ r rank
  counted : Counted s₀ held F₀ 0 s₀
  subtree : Subtree s₀ kn c₀
  base : ∀ x ∈ kn :: c₀.nodes, 0 < held x
  activated : ∀ x ∈ F₀, ∀ node, s₀.heap x = some node → node.activated = true
  balanced : ∀ d ∈ F₀, ∀ t, TreeOf (s₀.siblings d) t → t.RedBlack
  linked : parentOf s₀ kn ≠ 0 → Sorted s₀ (parentOf s₀ kn) L₀ ∧ kn ∈ L₀

/-- **Between the rounds**, with the forest `c` of nodes that are left below `kn`. -/
structure Going (s₀ : State) (held : ℕ → ℕ) (F₀ : Finset ℕ) (kn : ℕ) (c₀ : Forest ℕ) (A : List ℕ)
    (c : Forest ℕ) (F : Finset ℕ) (s : State) : Prop extends
    Kept s₀ held F₀ (kn :: c₀.nodes) A F s where
  order : Walk.order kn c₀ = A ++ Walk.order kn c
  tree : Subtree s kn c
  siblings : ∀ d, d ∉ kn :: c₀.nodes → s.siblings d = s₀.siblings d
  emptied : ∀ d ∈ A, ∀ node, s₀.heap d = some node → node.type = .dir → Sorted s d []
  balanced : ∀ d ∈ kn :: c.nodes, ∀ t, TreeOf (s.siblings d) t → t.RedBlack

theorem parentOf_node (h : Going s₀ held F₀ kn c₀ A c F s) (hx : x ∈ F) (hnode : NodeRep s par x f) :
    parentOf s₀ x = par := by
  obtain ⟨node₀, node, hnode₀, hnode', halike, -⟩ := h.nodes x hx
  obtain ⟨-, node₁, hnode₁, hpar, -⟩ := hnode
  rw [hnode'] at hnode₁
  cases hnode₁
  rw [← parentOf_eq hnode₀ halike]
  exact hpar

/-- A directory without children that is about to be taken away. -/
theorem leaf_empty (h : Going s₀ held F₀ kn c₀ A c F s) (hx : x ∈ F) (hnode : NodeRep s par x .nil)
    (node₀ : Node) (hnode₀ : s₀.heap x = some node₀) (hdir : node₀.type = .dir) : Sorted s x [] := by
  obtain ⟨node₁, node, hnode₁, hnode', halike, -⟩ := h.nodes x hx
  rw [hnode₀] at hnode₁
  cases hnode₁
  obtain ⟨-, node₂, hnode₂, -, hsorted, -⟩ := hnode
  rw [hnode'] at hnode₂
  cases hnode₂
  exact hsorted (halike.type.trans hdir)

section

variable (ht : Tree s₀ F₀ r rank held kn c₀ L₀)
include ht

theorem Tree.mem (hx : x ∈ kn :: c₀.nodes) : x ∈ F₀ := by
  obtain ⟨node, hnode⟩ := ht.subtree.live ((order_perm kn c₀).mem_iff.mpr hx)
  rw [ht.hierarchy.mem, hnode]
  rfl

theorem Tree.order_nodup : (Walk.order kn c₀).Nodup := (order_perm kn c₀).nodup_iff.mpr ht.subtree.nodup

/-- What is left of the subtree. -/
theorem left_mem (h : Going s₀ held F₀ kn c₀ A c F s) (hx : x ∈ kn :: c.nodes) :
    x ∈ kn :: c₀.nodes ∧ x ∉ A ∧ x ∈ F := by
  have hxc : x ∈ Walk.order kn c := (order_perm kn c).mem_iff.mpr hx
  have hx₀ : x ∈ kn :: c₀.nodes := by
    rw [← (order_perm kn c₀).mem_iff, h.order]
    exact List.mem_append_right A hxc
  have hnd := ht.order_nodup
  rw [h.order] at hnd
  have hxA : x ∉ A := fun hmem => List.disjoint_of_nodup_append hnd hmem hxc
  refine ⟨hx₀, hxA, ?_⟩
  by_contra hxF
  have hzero := h.idle x (ht.mem hx₀) hxF
  have hbase := ht.base x hx₀
  unfold heldAfter at hzero
  rw [List.count_eq_zero_of_not_mem hxA] at hzero
  omega

theorem activated_kn (h : Going s₀ held F₀ kn c₀ A c F s) (node : Node) (hnode : s.heap kn = some node) :
    node.activated = true := by
  obtain ⟨-, -, hF⟩ := left_mem ht h List.mem_cons_self
  obtain ⟨node₀, node', hnode₀, hnode', halike, -⟩ := h.nodes kn hF
  rw [hnode] at hnode'
  cases hnode'
  rw [halike.activated]
  exact ht.activated kn (h.subset hF) node₀ hnode₀

/-- The parent of the subtree is not in it. -/
theorem parent_notMem (h0 : parentOf s₀ kn ≠ 0) : parentOf s₀ kn ∉ kn :: c₀.nodes := by
  have hrank : ∀ {f : Forest ℕ} {par : ℕ}, Rep s₀ par f → par ≠ 0 → (∀ y ∈ f.nodes, y ∈ F₀) →
      ∀ y ∈ f.nodes, rank par < rank y := by
    intro f
    induction f with
    | nil => exact fun _ _ _ y hy => absurd hy List.not_mem_nil
    | cons p c rest ihc ihr =>
      rintro par ⟨⟨hp0, node, hnode, hpar, -⟩, hc, hr⟩ hpar0 hF y hy
      have hlt : rank par < rank p := by
        have hparent : parentOf s₀ p = par := by
          unfold parentOf
          rw [hnode]
          exact hpar
        have := ht.hierarchy.rank p (hF p List.mem_cons_self) (by rw [hparent]; exact hpar0)
        rw [hparent] at this
        exact this
      rcases List.mem_cons.mp hy with rfl | hy
      · exact hlt
      · rcases List.mem_append.mp hy with hy | hy
        · exact hlt.trans (ihc hc hp0 (fun z hz => hF z (List.mem_cons_of_mem _ (List.mem_append_left _ hz))) y hy)
        · exact ihr hr hpar0 (fun z hz => hF z (List.mem_cons_of_mem _ (List.mem_append_right _ hz))) y hy
  intro hmem
  have hlt := ht.hierarchy.rank kn (ht.mem List.mem_cons_self) h0
  rcases List.mem_cons.mp hmem with heq | hmem
  · rw [heq] at hlt
    exact lt_irrefl _ hlt
  · obtain ⟨⟨par, hnode⟩, hc, -⟩ := ht.subtree
    have := hrank hc hnode.ne_zero (fun y hy => ht.mem (List.mem_cons_of_mem _ hy)) _ hmem
    omega

/-- The state is ready for a round about the first node in postorder. -/
theorem ready (h : Going s₀ held F₀ kn c₀ A c F s) (hfuel : (Walk.order kn c₀).length < fuel)
    (hx : x ∈ kn :: c.nodes) (hfirst : c.postorder.headD kn = x)
    (hlinked : parentOf s₀ x ≠ 0 → Linked fuel s x (parentOf s₀ x) L) :
    Ready s₀ (heldAfter held A) F fuel kn x L s where
  counted := h.counted
  mem := (left_mem ht h hx).2.2
  root := (left_mem ht h List.mem_cons_self).2.2
  leftmost := by
    obtain ⟨⟨par, hnode⟩, hc, -⟩ := h.tree
    have hlen : c.postorder.length < fuel := by
      rw [h.order, List.length_append, Walk.order, List.length_append] at hfuel
      omega
    rw [leftmostDescendant_spec hnode hc hlen, hfirst]
  activated := activated_kn ht h
  linked := hlinked

/-- What is left of the subtree is still there after a round. -/
theorem stays_left (h : Going s₀ held F₀ kn c₀ A c F s)
    (hr : Rounded s₀ (heldAfter held (A ++ [x])) x s F s' F') (hy : y ∈ kn :: c.nodes) (hyx : y ≠ x) :
    Stays s s' y := by
  obtain ⟨hy₀, hyA, hyF⟩ := left_mem ht h hy
  have hyF' : y ∈ F' := by
    by_contra hnot
    have hzero := hr.idle y hyF hnot
    have hbase := ht.base y hy₀
    unfold heldAfter at hzero
    rw [List.count_eq_zero_of_not_mem] at hzero
    · omega
    · rw [List.mem_append, List.mem_singleton]
      exact not_or.mpr ⟨hyA, hyx⟩
  obtain ⟨node, node', hnode, hnode', halike, -⟩ := hr.kept y hyF'
  exact ⟨node, node', hnode, hnode', halike.parent, halike.type⟩

/-- **A round about a leaf** below `kn`. -/
theorem round_leaf (now : ℕ → ℕ) (h : Going s₀ held F₀ kn c₀ A c F s) (hpop : Forest.PopLeaf kn c x q c')
    (hcard : F₀.card ≤ fuel) (hfuel : (Walk.order kn c₀).length < fuel) :
    x ≠ kn ∧ (¬ Stampable s₀ x → removeRound fuel now kn s = none) ∧
      (Stampable s₀ x → ∃ s' F', removeRound fuel now kn s = some (s', x) ∧
        Going s₀ held F₀ kn c₀ (A ++ [x]) c' F' s') := by
  obtain ⟨⟨par₀, hkn⟩, hc, hnd⟩ := h.tree
  obtain ⟨hx, hq, L, hL, hlen, hafter⟩ := rep_pop hpop hc (NodeRep.dir hkn (popLeaf_ne_nil hpop)) hnd
  have hxc : x ∈ c.nodes := hpop.nodes_perm.mem_iff.mpr List.mem_cons_self
  have hnd' : (x :: c'.nodes).Nodup := hpop.nodes_perm.nodup_iff.mp (List.nodup_cons.mp hnd).2
  have hne : x ≠ kn := fun he => (List.nodup_cons.mp hnd).1 (he ▸ hxc)
  have hsub : ∀ y ∈ kn :: c'.nodes, y ∈ kn :: c.nodes ∧ y ≠ x := by
    intro y hy
    rcases List.mem_cons.mp hy with rfl | hy
    · exact ⟨List.mem_cons_self, hne.symm⟩
    · refine ⟨List.mem_cons_of_mem _ (hpop.nodes_perm.mem_iff.mpr (List.mem_cons_of_mem _ hy)), ?_⟩
      rintro rfl
      exact (List.nodup_cons.mp hnd').1 hy
  have hqmem : q ∈ kn :: c'.nodes := by
    rcases hq with rfl | hq
    · exact List.mem_cons_self
    · exact List.mem_cons_of_mem _ hq
  have hxmem : x ∈ kn :: c.nodes := List.mem_cons_of_mem _ hxc
  obtain ⟨hx₀, hxA, hxF⟩ := left_mem ht h hxmem
  obtain ⟨hqc, hqx⟩ := hsub q hqmem
  obtain ⟨hq₀, hqA, -⟩ := left_mem ht h hqc
  have hparent := parentOf_node h hxF hx
  have hq0 : q ≠ 0 := ht.hierarchy.ne_zero q (ht.mem hq₀)
  have hlinked : parentOf s₀ x ≠ 0 → Linked fuel s x (parentOf s₀ x) (x :: L) := by
    intro _
    rw [hparent]
    refine ⟨hL, List.mem_cons_self, h.balanced q hqc, ?_⟩
    have horder := congrArg List.length h.order
    rw [List.length_append, Walk.order, Walk.order, List.length_append, List.length_append] at horder
    rw [Walk.order, List.length_append] at hfuel
    omega
  have hready := ready ht h hfuel hxmem (by rw [hpop.postorder_eq]; rfl) hlinked
  refine ⟨hne, fun hbad => removeRound_none now ht.hierarchy h.subset hready hbad, fun hgood => ?_⟩
  obtain ⟨s', F', hrun, hrounded, hother, hsorted, hbal⟩ := removeRound_spec now ht.hierarchy h.subset hcard
    hready (heldAfter_concat hxA (ht.base x hx₀)) hgood
  rw [hparent] at hother hsorted hbal
  have hsorted := hsorted hq0
  rw [List.erase_cons_head] at hsorted
  obtain ⟨hrep', hroots'⟩ := hafter s' hother hsorted fun y hy => by
    obtain ⟨hyc, hyx⟩ := hsub y (List.mem_cons_of_mem _ hy)
    exact stays_left ht h hrounded hyc hyx
  refine ⟨s', F', hrun, h.toKept.rounded hrounded hx₀, ?_, ⟨⟨par₀, ?_⟩, hrep', ?_⟩, fun d hd => ?_,
    fun d hd node₀ hnode₀ hdir => ?_, fun d hd => ?_⟩
  · rw [h.order, List.append_assoc]
    unfold Walk.order
    rw [hpop.postorder_eq]
    rfl
  · obtain ⟨node, node', hnode, hnode', hpar', htype'⟩ := stays_left ht h hrounded List.mem_cons_self hne.symm
    obtain ⟨hkn0, node₁, hnode₁, hpar₁, -, hfile⟩ := hkn
    rw [hnode] at hnode₁
    cases hnode₁
    exact ⟨hkn0, node', hnode', hpar'.trans hpar₁, fun _ => hroots',
      fun htype => absurd (hfile (htype' ▸ htype)) (popLeaf_ne_nil hpop)⟩
  · refine List.nodup_cons.mpr ⟨fun hmem => ?_, (List.nodup_cons.mp hnd').2⟩
    exact (List.nodup_cons.mp hnd).1 (hpop.nodes_perm.mem_iff.mpr (List.mem_cons_of_mem _ hmem))
  · rw [hother d fun he => hd (he ▸ hq₀)]
    exact h.siblings d hd
  · rcases List.mem_append.mp hd with hd | hd
    · exact sorted_congr (h.emptied d hd node₀ hnode₀ hdir) (hother d fun he => hqA (he ▸ hd))
    · rw [List.mem_singleton.mp hd] at hnode₀ ⊢
      exact sorted_congr (leaf_empty h hxF hx node₀ hnode₀ hdir) (hother x hqx.symm)
  · by_cases hdq : d = q
    · rw [hdq]
      exact hbal hq0
    · rw [hother d hdq]
      exact h.balanced d (hsub d hd).1

/-- **The end**: the whole subtree has been taken away. -/
structure Finished (s₀ : State) (held : ℕ → ℕ) (F₀ : Finset ℕ) (kn : ℕ) (c₀ : Forest ℕ) (L₀ : List ℕ)
    (F : Finset ℕ) (s : State) : Prop extends
    Kept s₀ held F₀ (kn :: c₀.nodes) (Walk.order kn c₀) F s where
  siblings : ∀ d, d ∉ kn :: c₀.nodes → d ≠ parentOf s₀ kn → s.siblings d = s₀.siblings d
  emptied : ∀ d ∈ kn :: c₀.nodes, ∀ node, s₀.heap d = some node → node.type = .dir → Sorted s d []
  unlinked : parentOf s₀ kn ≠ 0 → Sorted s (parentOf s₀ kn) (L₀.erase kn)

/-- **The last round**, about `kn`. -/
theorem round_root (now : ℕ → ℕ) (h : Going s₀ held F₀ kn c₀ A .nil F s) (hcard : F₀.card ≤ fuel)
    (hfuel : (Walk.order kn c₀).length < fuel) (hL : L₀.length ≤ fuel) :
    (¬ Stampable s₀ kn → removeRound fuel now kn s = none) ∧
      (Stampable s₀ kn → ∃ s' F', removeRound fuel now kn s = some (s', kn) ∧
        Finished s₀ held F₀ kn c₀ L₀ F' s') := by
  obtain ⟨⟨par₀, hkn⟩, -, -⟩ := h.tree
  obtain ⟨hx₀, hxA, hxF⟩ := left_mem ht h List.mem_cons_self
  have hparent := parentOf_node h hxF hkn
  have hlinked : parentOf s₀ kn ≠ 0 → Linked fuel s kn (parentOf s₀ kn) L₀ := by
    intro h0
    obtain ⟨hsorted, hmem⟩ := ht.linked h0
    have hsib := h.siblings _ (parent_notMem ht h0)
    refine ⟨sorted_congr hsorted hsib, hmem, ?_, hL⟩
    rw [hsib]
    exact ht.balanced _ (parent_mem ht.counted (ht.mem hx₀) h0)
  have hready := ready ht h hfuel List.mem_cons_self rfl hlinked
  refine ⟨fun hbad => removeRound_none now ht.hierarchy h.subset hready hbad, fun hgood => ?_⟩
  obtain ⟨s', F', hrun, hrounded, hdetached⟩ := removeRound_spec now ht.hierarchy h.subset hcard hready
    (heldAfter_concat hxA (ht.base kn hx₀)) hgood
  have horder : A ++ [kn] = Walk.order kn c₀ := h.order.symm
  have hkept := h.toKept.rounded hrounded hx₀
  rw [horder] at hkept
  refine ⟨s', F', hrun, hkept, fun d hd hne => ?_, fun d hd node₀ hnode₀ hdir => ?_, hdetached.sorted⟩
  · rw [hdetached.other d hne]
    exact h.siblings d hd
  · have hsame : s'.siblings d = s.siblings d := by
      refine hdetached.other d fun he => ?_
      have h0 : parentOf s₀ kn ≠ 0 := he ▸ ht.hierarchy.ne_zero d (ht.mem hd)
      exact parent_notMem ht h0 (he ▸ hd)
    rw [← (order_perm kn c₀).mem_iff, ← horder] at hd
    rcases List.mem_append.mp hd with hd | hd
    · exact sorted_congr (h.emptied d hd node₀ hnode₀ hdir) hsame
    · rw [List.mem_singleton.mp hd] at hnode₀ hsame ⊢
      exact sorted_congr (leaf_empty h hxF hkn node₀ hnode₀ hdir) hsame

/-- **The second loop** of `__bsfs_remove`. -/
theorem removeLoop_spec (now : ℕ → ℕ) (hcard : F₀.card ≤ fuel) (hfuel : (Walk.order kn c₀).length < fuel)
    (hL : L₀.length ≤ fuel) : ∀ (n : ℕ) {c : Forest ℕ} {A : List ℕ} {F : Finset ℕ} {s : State},
    Going s₀ held F₀ kn c₀ A c F s → c.postorder.length < n →
      ((∃ x ∈ Walk.order kn c, ¬ Stampable s₀ x) → removeLoop fuel now kn n s = none) ∧
      ((∀ x ∈ Walk.order kn c, Stampable s₀ x) → ∃ s' F', removeLoop fuel now kn n s = some s' ∧
        Finished s₀ held F₀ kn c₀ L₀ F' s')
  | 0, _, _, _, _, _, hn => absurd hn (Nat.not_lt_zero _)
  | n + 1, c, A, F, s, h, hn => by
    rcases Forest.exists_popLeaf kn c with rfl | ⟨x, q, c', hpop⟩
    · obtain ⟨hbad, hgood⟩ := round_root ht now h hcard hfuel hL
      constructor
      · rintro ⟨x, hx, hnot⟩
        rw [List.mem_singleton.mp hx] at hnot
        rw [removeLoop, hbad hnot]
        rfl
      · intro hall
        obtain ⟨s', F', hrun, hfinished⟩ := hgood (hall kn (List.mem_singleton_self kn))
        refine ⟨s', F', ?_, hfinished⟩
        rw [removeLoop, hrun]
        exact if_neg (not_not.mpr rfl)
    · obtain ⟨hne, hbad, hgood⟩ := round_leaf ht now h hpop hcard hfuel
      have horder : Walk.order kn c = x :: Walk.order kn c' := by
        unfold Walk.order
        rw [hpop.postorder_eq]
        rfl
      have hlen : c'.postorder.length < n := by
        rw [hpop.postorder_eq, List.length_cons] at hn
        omega
      have hnext : ∀ s', removeRound fuel now kn s = some (s', x) →
          removeLoop fuel now kn (n + 1) s = removeLoop fuel now kn n s' := by
        intro s' hrun
        rw [removeLoop, hrun]
        exact if_pos hne
      rw [horder]
      by_cases hx : Stampable s₀ x
      · obtain ⟨s', F', hrun, hgoing⟩ := hgood hx
        obtain ⟨hbad', hgood'⟩ := removeLoop_spec now hcard hfuel hL n hgoing hlen
        rw [hnext s' hrun]
        constructor
        · rintro ⟨y, hy, hnot⟩
          rcases List.mem_cons.mp hy with rfl | hy
          · exact absurd hx hnot
          · exact hbad' ⟨y, hy, hnot⟩
        · exact fun hall => hgood' fun y hy => hall y (List.mem_cons_of_mem _ hy)
      · refine ⟨fun _ => ?_, fun hall => absurd (hall x List.mem_cons_self) hx⟩
        rw [removeLoop, hbad hx]
        rfl

/-- The state after the first loop. -/
theorem deactivated_going : Going s₀ held F₀ kn c₀ [] c₀ F₀ (withDeactivated s₀ (Walk.order kn c₀)) := by
  have hmem : ∀ x, x ∈ Walk.order kn c₀ ↔ x ∈ kn :: c₀.nodes := fun x => (order_perm kn c₀).mem_iff
  have hshape := withDeactivated_shape s₀ (Walk.order kn c₀)
  have hnodes : ∀ y ∈ F₀, ∃ node₀ node, s₀.heap y = some node₀ ∧
      (withDeactivated s₀ (Walk.order kn c₀)).heap y = some node ∧ Alike node₀ node ∧
      node.count = node₀.count ∧ (y ∉ kn :: c₀.nodes → node.active = node₀.active) := by
    intro y hy
    obtain ⟨node₀, hnode₀⟩ := Option.isSome_iff_exists.mp ((ht.hierarchy.mem y).mp hy)
    by_cases hyT : y ∈ Walk.order kn c₀
    · obtain ⟨halike, hcount⟩ := deactivated_alike node₀
      exact ⟨node₀, _, hnode₀, withDeactivated_of_mem hyT hnode₀, halike, hcount,
        fun hnot => absurd ((hmem y).mp hyT) hnot⟩
    · exact ⟨node₀, node₀, hnode₀, (withDeactivated_of_notMem hyT).trans hnode₀, Alike.refl _, rfl, fun _ => rfl⟩
  have hheld : heldAfter held [] = held := rfl
  refine ⟨⟨⟨fun y hy => ?_, ?_, fun y hy => absurd hy (Multiset.notMem_zero y), ht.counted.closed,
    ht.counted.idr, ht.counted.root⟩, Finset.Subset.refl _, fun y hy => ?_, fun y hy hy' => absurd hy hy',
    fun y hy hy' => absurd hy hy', fun y hy => ?_⟩, rfl, hshape.subtree ht.subtree, fun _ _ => rfl,
    fun d hd => absurd hd List.not_mem_nil, fun d hd => ht.balanced d (ht.mem hd)⟩
  · obtain ⟨node₀, node, hnode₀, hnode, halike, hcount, -⟩ := hnodes y hy
    obtain ⟨node₁, node₂, hnode₁, hnode₂, -, hcount₀⟩ := ht.counted.live y hy
    rw [hnode₀] at hnode₂
    cases hnode₂
    exact ⟨node₀, node, hnode₀, hnode, halike, hcount.trans hcount₀⟩
  · rw [hheld]
    exact ht.counted.pos
  · obtain ⟨node₀, node, hnode₀, hnode, halike, -, hactive⟩ := hnodes y hy
    exact ⟨node₀, node, hnode₀, hnode, halike, fun hA => absurd hA List.not_mem_nil, hactive⟩
  · have hnone : s₀.heap y = none := by
      rw [ht.hierarchy.mem, Bool.not_eq_true, Option.isSome_eq_false_iff, Option.isNone_iff_eq_none] at hy
      exact hy
    have hyT : y ∉ Walk.order kn c₀ := fun hyT => hy (ht.mem ((hmem y).mp hyT))
    exact (withDeactivated_of_notMem hyT).trans hnone

/-- **`bsfs_remove`** with enough fuel. -/
theorem bsfsRemove_cases (now : ℕ → ℕ) (hcard : F₀.card ≤ fuel) (hfuel : (Walk.order kn c₀).length < fuel)
    (hL : L₀.length ≤ fuel) :
    ((∃ x ∈ Walk.order kn c₀, ¬ Stampable s₀ x) → bsfsRemove fuel now kn s₀ = none) ∧
      ((∀ x ∈ Walk.order kn c₀, Stampable s₀ x) → ∃ s' F', bsfsRemove fuel now kn s₀ = some s' ∧
        Finished s₀ held F₀ kn c₀ L₀ F' s') := by
  have hkn := ht.mem List.mem_cons_self
  have hlen : c₀.postorder.length < fuel := by
    rw [Walk.order, List.length_append] at hfuel
    omega
  obtain ⟨node, hnode⟩ := Option.isSome_iff_exists.mp ((ht.hierarchy.mem kn).mp hkn)
  have hparent : node.parent = parentOf s₀ kn := parentOf_eq hnode (Alike.refl node)
  have hlinked : ¬ (node.parent ≠ 0 ∧ rbEmptyNode s₀ node kn = true) := by
    rintro ⟨h0, hempty⟩
    obtain ⟨⟨t, htree, hin⟩, hmem⟩ := ht.linked (hparent ▸ h0)
    rw [← hparent] at htree
    exact Rbtree.Neighbour.not_empty_node htree (hin ▸ hmem) (of_decide_eq_true hempty)
  have hfirst := deactivateLoop_spec ht.subtree hlen (Walk.order kn c₀) fuel [] 0 hfuel rfl rfl
  have hnil : withDeactivated s₀ [] = s₀ := by
    unfold withDeactivated
    simp
  rw [hnil, List.nil_append] at hfirst
  have hrun : bsfsRemove fuel now kn s₀ =
      removeLoop fuel now kn fuel (withDeactivated s₀ (Walk.order kn c₀)) := by
    unfold bsfsRemove
    rw [if_neg (ht.hierarchy.ne_zero kn hkn), hnode]
    show (if node.parent ≠ 0 ∧ rbEmptyNode s₀ node kn = true then _ else _) = _
    rw [if_neg hlinked, hfirst]
    rfl
  rw [hrun]
  exact removeLoop_spec ht now hcard hfuel hL fuel (deactivated_going ht) hlen

end

/-! ### Safe removal -/

/-- **The subtree has been removed**, and the nodes in `F` are still in memory. Each node of the subtree is
deactivated, has left the list of its parent, and has lost one of the references from outside; the nodes
without a reference are freed. -/
structure IsRemoved (s₀ : State) (held : ℕ → ℕ) (F₀ : Finset ℕ) (kn : ℕ) (c₀ : Forest ℕ) (L₀ : List ℕ)
    (F : Finset ℕ) (s' : State) : Prop where
  live : ∀ x, x ∈ F ↔ (s'.heap x).isSome
  nodes : ∀ x ∈ F, ∃ node₀ node, s₀.heap x = some node₀ ∧ s'.heap x = some node ∧ Alike node₀ node ∧
    node.count = (refs (refsOut s₀) (heldAfter held (kn :: c₀.nodes)) F 0 x : ℕ) ∧
    (x ∈ kn :: c₀.nodes → node.active = BS_DEACTIVATED_BIAS) ∧
    (x ∉ kn :: c₀.nodes → node.active = node₀.active)
  freed : ∀ x ∈ F₀, x ∉ F ↔ refs (refsOut s₀) (heldAfter held (kn :: c₀.nodes)) F 0 x = 0
  ino : ∀ x ∈ F₀, s'.inoIdr (inoOf s₀ x) = if x ∈ F then x else 0
  emptied : ∀ d ∈ kn :: c₀.nodes, ∀ node, s₀.heap d = some node → node.type = .dir → Sorted s' d []
  unlinked : parentOf s₀ kn ≠ 0 → Sorted s' (parentOf s₀ kn) (L₀.erase kn)
  siblings : ∀ d, d ∉ kn :: c₀.nodes → d ≠ parentOf s₀ kn → s'.siblings d = s₀.siblings d

theorem heldAfter_perm {A B : List ℕ} (h : A.Perm B) : heldAfter held A = heldAfter held B := by
  funext x
  unfold heldAfter
  rw [h.count_eq]

theorem Finished.isRemoved (h : Finished s₀ held F₀ kn c₀ L₀ F s') :
    IsRemoved s₀ held F₀ kn c₀ L₀ F s' := by
  have hheld : heldAfter held (Walk.order kn c₀) = heldAfter held (kn :: c₀.nodes) :=
    heldAfter_perm (order_perm kn c₀)
  have hcounted := h.counted
  have hidle := h.idle
  rw [hheld] at hcounted hidle
  refine ⟨fun x => ?_, fun x hx => ?_, fun x hx => ?_, fun x hx => ?_, h.emptied, h.unlinked, h.siblings⟩
  · constructor
    · intro hx
      obtain ⟨-, node, -, hnode, -⟩ := h.nodes x hx
      rw [hnode]
      rfl
    · intro hsome
      by_contra hx
      have hnone : s'.heap x = none := by
        by_cases hx₀ : x ∈ F₀
        · exact (h.gone x hx₀ hx).1
        · exact h.none x hx₀
      rw [hnone] at hsome
      cases hsome
  · obtain ⟨node₀, node, hnode₀, hnode, halike, hactive, hother⟩ := h.nodes x hx
    obtain ⟨-, node₁, -, hnode₁, -, hcount⟩ := hcounted.live x hx
    rw [hnode] at hnode₁
    cases hnode₁
    exact ⟨node₀, node, hnode₀, hnode, halike, hcount,
      fun hmem => hactive ((order_perm kn c₀).mem_iff.mpr hmem), hother⟩
  · constructor
    · intro hxF
      rw [refs_of_notMem hcounted.closed hxF]
      exact hidle x hx hxF
    · intro hzero hxF
      exact (hcounted.pos x hxF).ne' hzero
  · split_ifs with hxF
    · exact hcounted.idr x hxF
    · exact (h.gone x hx hxF).2

/-- **Safe removal.** `bsfs_remove` returns with the subtree removed if and only if each of its nodes has time
stamps where the parent has some; else it follows a pointer that is `NULL`. -/
theorem bsfsRemove_safe_iff (ht : Tree s₀ F₀ r rank held kn c₀ L₀) (now : ℕ → ℕ) :
    (∃ enough, ∀ fuel > enough, ∃ s' F, bsfsRemove fuel now kn s₀ = some s' ∧
      IsRemoved s₀ held F₀ kn c₀ L₀ F s') ↔ ∀ x ∈ kn :: c₀.nodes, Stampable s₀ x := by
  have hmem : ∀ x, x ∈ Walk.order kn c₀ ↔ x ∈ kn :: c₀.nodes := fun x => (order_perm kn c₀).mem_iff
  constructor
  · rintro ⟨enough, h⟩
    by_contra hbad
    push Not at hbad
    obtain ⟨x, hx, hnot⟩ := hbad
    obtain ⟨fuel, hfuel⟩ : ∃ fuel, enough + F₀.card + (Walk.order kn c₀).length + L₀.length < fuel :=
      ⟨_, Nat.lt_succ_self _⟩
    obtain ⟨s', F, hrun, -⟩ := h fuel (by omega)
    have hcard : F₀.card ≤ fuel := by omega
    have hnone := (bsfsRemove_cases ht now hcard (by omega) (by omega)).1 ⟨x, (hmem x).mpr hx, hnot⟩
    rw [hrun] at hnone
    cases hnone
  · intro hgood
    refine ⟨F₀.card + (Walk.order kn c₀).length + L₀.length, fun fuel hfuel => ?_⟩
    have hcard : F₀.card ≤ fuel := by omega
    obtain ⟨s', F, hrun, hfinished⟩ := (bsfsRemove_cases ht now hcard (by omega) (by omega)).2
      fun x hx => hgood x ((hmem x).mp hx)
    exact ⟨s', F, hrun, hfinished.isRemoved⟩

/-- A directory with a file, both activated; the directory has time stamps. -/
def stampedDir : State where
  heap := fun p =>
    if p = 4 then some ⟨2, 0, 0, 0, 0, .dir, true, 0, 0, 1, some ⟨0, 0⟩⟩
    else if p = 8 then some ⟨1, 0, 4, 0, 2, .file, true, 0, 0, 2, none⟩
    else none
  siblings := fun _ => ⟨fun _ => 1, fun _ _ => 0, 8, ()⟩
  inoIdr := fun i => if i = 1 then 4 else if i = 2 then 8 else 0
  rootFreed := false

theorem stampedDir_live {x : ℕ} (h : (stampedDir.heap x).isSome) : x = 4 ∨ x = 8 := by
  by_contra hx
  rw [not_or] at hx
  unfold stampedDir at h
  dsimp only at h
  rw [if_neg hx.1, if_neg hx.2] at h
  cases h

theorem stampedDir_tree : Tree stampedDir {4, 8} 4 id (fun _ => 1) 8 .nil [8] := by
  have hcases : ∀ x ∈ ({4, 8} : Finset ℕ), x = 4 ∨ x = 8 := by decide
  have htree : ∀ d, TreeOf (stampedDir.siblings d) (.node .black .nil 8 .nil) := fun _ =>
    ⟨rfl, ⟨⟨by decide, by decide⟩, rfl, rfl, rfl, trivial, trivial⟩, by decide⟩
  have hfile : NodeRep stampedDir 4 8 .nil := ⟨by decide, _, rfl, rfl, nofun, fun _ => rfl⟩
  refine ⟨⟨fun x => ⟨fun hx => ?_, fun hx => ?_⟩, by decide, by decide, fun node hnode => ?_, by decide, by decide⟩,
    ⟨fun x hx => ?_, by decide, by decide, by decide, by decide, nofun⟩, ⟨⟨4, hfile⟩, trivial, by decide⟩,
    by decide, fun x hx node hnode => ?_, fun d _ t ht => ?_, fun _ => ⟨⟨_, htree 4, rfl⟩, by decide⟩⟩
  · rcases hcases x hx with rfl | rfl <;> rfl
  · rcases stampedDir_live hx with rfl | rfl <;> decide
  · cases hnode
    rfl
  · rcases hcases x hx with rfl | rfl
    · exact ⟨_, _, rfl, rfl, Alike.refl _, by decide⟩
    · exact ⟨_, _, rfl, rfl, Alike.refl _, by decide⟩
  · rcases hcases x hx with rfl | rfl
    · cases hnode
      rfl
    · cases hnode
      rfl
  · rw [Rbtree.Run.treeOf_unique ht (htree d)]
    exact ⟨rfl, ⟨nofun, trivial, trivial⟩, 1, 0, rfl, rfl, rfl⟩

theorem bsfsRemove_safe_iff_stampedDir :
    (∃ enough, ∀ fuel > enough, ∃ s' F, bsfsRemove fuel (fun _ => 0) 8 stampedDir = some s' ∧
      IsRemoved stampedDir (fun _ => 1) {4, 8} 8 .nil [8] F s') ↔ ∀ x ∈ [8], Stampable stampedDir x :=
  bsfsRemove_safe_iff stampedDir_tree fun _ => 0

/-- Removing the file follows the pointer to time stamps that it does not have. -/
theorem stampedDir_not_removed : ¬ ∀ (s₀ : State) (F₀ : Finset ℕ) (r : ℕ) (rank held : ℕ → ℕ) (kn : ℕ)
    (c₀ : Forest ℕ) (L₀ : List ℕ) (now : ℕ → ℕ), Tree s₀ F₀ r rank held kn c₀ L₀ →
    ∃ enough, ∀ fuel > enough, ∃ s' F, bsfsRemove fuel now kn s₀ = some s' ∧
      IsRemoved s₀ held F₀ kn c₀ L₀ F s' := by
  intro h
  obtain ⟨enough, h⟩ := h _ _ _ _ _ _ _ _ (fun _ => 0) stampedDir_tree
  obtain ⟨s', F, hrun, -⟩ := h (enough + 2) (by omega)
  have hcard : ({4, 8} : Finset ℕ).card ≤ enough + 2 := le_add_self
  have horder : (Walk.order 8 (Forest.nil : Forest ℕ)).length < enough + 2 := by
    show 1 < enough + 2
    omega
  have hlist : [8].length ≤ enough + 2 := by
    show 1 ≤ enough + 2
    omega
  have hbad : ¬ Stampable stampedDir 8 := by
    intro hstamp
    exact Bool.false_ne_true (hstamp (by decide) rfl)
  have hnone := (bsfsRemove_cases stampedDir_tree (fun _ => 0) hcard horder hlist).1
    ⟨8, List.mem_singleton_self 8, hbad⟩
  rw [hrun] at hnone
  cases hnone

end HardStack.Bsfs.Removed
