import HardStack.Bsfs.Model
import HardStack.Rbtree.Traversal

/-! # The walk over a subtree

`bsfs_next_descendant_post` goes from each node of a subtree to the next one in postorder. The memory
holds a forest `f` of siblings (`Rep`) if each directory has the roots of its children, in order, in its
red-black tree. -/

namespace HardStack.Bsfs.Walk

open HardStack.Bsfs.Model HardStack.Lib.Forest HardStack.Lib.RbTree
open HardStack.Rbtree.Model (rbFirst rbNext visit)
open HardStack.Rbtree.Layout (TreeOf)

variable {s s' : State} {fuel n par p kn : ℕ} {f c : Forest ℕ}

/-- The red-black tree of a directory has these nodes, in this order. -/
def Sorted (s : State) (dir : ℕ) (L : List ℕ) : Prop :=
  ∃ t : CTree ℕ, TreeOf (s.siblings dir) t ∧ t.inorder = L

/-- A node with its parent; only a directory has children. -/
structure NodeRep (s : State) (par p : ℕ) (c : Forest ℕ) : Prop where
  ne_zero : p ≠ 0
  live : ∃ node, s.heap p = some node ∧ node.parent = par ∧
    (node.type = .dir → Sorted s p c.roots) ∧ (node.type ≠ .dir → c = .nil)

theorem NodeRep.sorted (h : NodeRep s par p c) : c = .nil ∨ Sorted s p ([] ++ c.roots) := by
  obtain ⟨-, node, -, -, hdir, hfile⟩ := h
  by_cases htype : node.type = .dir
  · exact Or.inr (hdir htype)
  · exact Or.inl (hfile htype)

/-- **The memory holds the forest**, with the parent `par` of its roots. -/
def Rep (s : State) : ℕ → Forest ℕ → Prop
  | _, .nil => True
  | par, .cons p c r => NodeRep s par p c ∧ Rep s p c ∧ Rep s par r

/-- The memory holds the subtree of `kn` with the children `c`. -/
structure Subtree (s : State) (kn : ℕ) (c : Forest ℕ) : Prop where
  node : ∃ par, NodeRep s par kn c
  children : Rep s kn c
  nodup : (kn :: c.nodes).Nodup

/-- The nodes of a subtree in postorder. -/
def order (kn : ℕ) (c : Forest ℕ) : List ℕ := c.postorder ++ [kn]

theorem order_perm (kn : ℕ) (c : Forest ℕ) : (order kn c).Perm (kn :: c.nodes) :=
  (List.perm_append_singleton kn c.postorder).trans ((Forest.postorder_perm c).cons kn)

theorem headD_append_cons (L M : List ℕ) (x y : ℕ) : (L ++ x :: M).headD y = L.headD x := by
  cases L <;> rfl

/-! ### Descending -/

/-- **The leftmost descendant** is the first node in postorder. -/
theorem leftmostLoop_spec : ∀ {c : Forest ℕ} {par p n : ℕ}, NodeRep s par p c → Rep s p c →
    c.postorder.length < n → c.postorder.length < fuel →
    leftmostLoop fuel s n p = some (c.postorder.headD p)
  | c, par, p, 0, _, _, hn, _ => absurd hn (Nat.not_lt_zero _)
  | .nil, par, p, n + 1, ⟨_, node, hlive, _, hdir, _⟩, _, _, hfuel => by
    rw [leftmostLoop, hlive]
    show (if node.type ≠ .dir then _ else _) = _
    by_cases htype : node.type = .dir
    · obtain ⟨t, ht, hin⟩ := hdir htype
      rw [if_neg (not_not.mpr htype), Rbtree.Traversal.rbFirst_spec fuel ht (by rw [hin]; exact hfuel), hin]
      rfl
    · rw [if_pos htype]
      rfl
  | .cons q c r, par, p, n + 1, ⟨_, node, hlive, _, hdir, hfile⟩, ⟨hq, hc, _⟩, hn, hfuel => by
    have hlen : (Forest.cons q c r).postorder.length = c.postorder.length + (r.postorder.length + 1) := by
      rw [Forest.postorder, List.length_append, List.length_cons]
    have htype : node.type = .dir := by
      by_contra h
      cases hfile h
    obtain ⟨t, ht, hin⟩ := hdir htype
    have hroots := (Forest.roots_sublist (Forest.cons q c r)).length_le
    rw [leftmostLoop, hlive]
    show (if node.type ≠ .dir then _ else _) = _
    rw [if_neg (not_not.mpr htype), Rbtree.Traversal.rbFirst_spec fuel ht (by rw [hin]; omega), hin]
    show (if q = 0 then some p else leftmostLoop fuel s n q) = _
    rw [if_neg hq.ne_zero, leftmostLoop_spec hq hc (by omega) (by omega), Forest.postorder,
      headD_append_cons]

theorem leftmostDescendant_spec (hp : NodeRep s par p c) (hc : Rep s p c)
    (hfuel : c.postorder.length < fuel) :
    leftmostDescendant fuel s p = some (c.postorder.headD p) :=
  leftmostLoop_spec hp hc hfuel hfuel

/-! ### The next node -/

/-- The step from a node to its next sibling, or to its parent after the last one. -/
theorem next_sibling {L : List ℕ} {r : Forest ℕ} {root : ℕ} (hsorted : Sorted s par (L ++ p :: r.roots))
    (hp : NodeRep s par p c) (hr : Rep s par r) (hroot : p ≠ root)
    (hlen : (L ++ p :: r.roots).length < fuel) (hfuel : r.postorder.length < fuel) :
    nextDescendantPost fuel s p root = some (r.postorder.headD par) := by
  obtain ⟨hne, node, hlive, hpar, -⟩ := hp
  obtain ⟨t, ht, hin⟩ := hsorted
  unfold nextDescendantPost
  rw [if_neg hne, if_neg hroot, hlive]
  show (rbNext fuel (s.siblings node.parent) p).bind _ = _
  rw [hpar, Rbtree.Traversal.rbNext_spec fuel ht hin (by rw [hin]; exact hlen)]
  cases r with
  | nil => rfl
  | cons q c' r' =>
    obtain ⟨hq, hc', -⟩ := hr
    show (if q ≠ 0 then leftmostDescendant fuel s q else _) = _
    have hlen' : (Forest.cons q c' r').postorder.length = c'.postorder.length + (r'.postorder.length + 1) := by
      rw [Forest.postorder, List.length_append, List.length_cons]
    rw [if_pos hq.ne_zero, leftmostDescendant_spec hq hc' (by omega), Forest.postorder, headD_append_cons]

/-- **The next node** in the postorder of a forest of siblings is where the walk goes on; from the last
one it goes to the parent. -/
theorem next_spec {root : ℕ} : ∀ {f : Forest ℕ} {par : ℕ} {L : List ℕ}, Rep s par f →
    (f = .nil ∨ Sorted s par (L ++ f.roots)) → root ∉ f.postorder →
    (L ++ f.roots).length < fuel → f.postorder.length < fuel →
    ∀ A x B, f.postorder = A ++ x :: B → nextDescendantPost fuel s x root = some (B.headD par)
  | .nil, _, _, _, _, _, _, _, A, x, B, hpost => absurd hpost (by simp [Forest.postorder])
  | .cons p c r, par, L, ⟨hp, hc, hr⟩, hsorted, hroot, hlen, hfuel, A, x, B, hpost => by
    have hsorted : Sorted s par (L ++ p :: r.roots) := hsorted.resolve_left (by simp)
    rw [Forest.postorder, List.mem_append, List.mem_cons, not_or, not_or] at hroot
    rw [Forest.postorder, List.length_append, List.length_cons] at hfuel
    have hsib := next_sibling hsorted hp hr (Ne.symm hroot.2.1) hlen (by omega)
    rw [Forest.postorder] at hpost
    rcases List.append_eq_append_iff.mp hpost with ⟨A', -, hr'⟩ | ⟨C, hA, hx⟩
    · rcases A' with _ | ⟨q, A'⟩
      · cases hr'
        exact hsib
      · -- a later tree
        rw [List.cons_append] at hr'
        obtain ⟨rfl, htail⟩ := List.cons.inj hr'
        exact next_spec (L := L ++ [p]) hr
          (Or.inr (by rw [List.append_assoc]; exact hsorted)) hroot.2.2
          (by rw [List.append_assoc]; exact hlen) (by omega) A' x B htail
    · rcases C with _ | ⟨y, C⟩
      · cases hx
        exact hsib
      · -- below the node
        rw [List.cons_append] at hx
        obtain ⟨rfl, rfl⟩ := List.cons.inj hx
        have hroots := (Forest.roots_sublist c).length_le
        rw [next_spec hc hp.sorted hroot.1 (by rw [List.nil_append]; omega) (by omega) A x C hA,
          headD_append_cons]

/-- **The walk** from `NULL` over a subtree: the postorder of its nodes, then `NULL`. -/
theorem walk_spec (h : Subtree s kn c) (hfuel : c.postorder.length < fuel) :
    nextDescendantPost fuel s 0 kn = some ((order kn c).headD 0) ∧
      ∀ A x B, order kn c = A ++ x :: B → nextDescendantPost fuel s x kn = some (B.headD 0) := by
  obtain ⟨⟨par, hnode⟩, hc, hnd⟩ := h
  have hkn : kn ∉ c.postorder := fun hmem =>
    (List.nodup_cons.mp hnd).1 ((Forest.postorder_perm c).mem_iff.mp hmem)
  have hlast : nextDescendantPost fuel s kn kn = some 0 := by
    rw [nextDescendantPost, if_neg hnode.ne_zero, if_pos rfl]
  constructor
  · rw [nextDescendantPost, if_pos rfl, leftmostDescendant_spec hnode hc hfuel, order, headD_append_cons]
  · intro A x B hpost
    rcases List.append_eq_append_iff.mp hpost with ⟨A', -, hx⟩ | ⟨C, hA, hx⟩
    · rcases A' with _ | ⟨q, A'⟩
      · cases hx
        exact hlast
      · rw [List.cons_append] at hx
        exact absurd (List.cons.inj hx).2 (by simp)
    · rcases C with _ | ⟨y, C⟩
      · cases hx
        exact hlast
      · rw [List.cons_append] at hx
        obtain ⟨rfl, rfl⟩ := List.cons.inj hx
        have hroots := (Forest.roots_sublist c).length_le
        rw [next_spec hc hnode.sorted hkn (by rw [List.nil_append]; omega) hfuel A x C hA,
          headD_append_cons]

theorem zero_notMem_rep : ∀ {f : Forest ℕ} {par : ℕ}, Rep s par f → 0 ∉ f.nodes
  | .nil, _, _ => List.not_mem_nil
  | .cons p c r, par, ⟨hp, hc, hr⟩ => by
    rw [Forest.nodes, List.mem_cons, List.mem_append, not_or, not_or]
    exact ⟨Ne.symm hp.ne_zero, zero_notMem_rep hc, zero_notMem_rep hr⟩

theorem Subtree.zero_notMem (h : Subtree s kn c) : 0 ∉ order kn c := by
  obtain ⟨⟨par, hnode⟩, hc, -⟩ := h
  rw [(order_perm kn c).mem_iff, List.mem_cons, not_or]
  exact ⟨Ne.symm hnode.ne_zero, zero_notMem_rep hc⟩

/-- **Iterating from `NULL`** ends, and is at every node once. -/
theorem visit_spec (h : Subtree s kn c) (hfuel : (order kn c).length < fuel) :
    (nextDescendantPost fuel s 0 kn).bind (visit (fun pos => nextDescendantPost fuel s pos kn) fuel) =
      some (order kn c) := by
  have hlen : c.postorder.length < fuel := by
    rw [order, List.length_append] at hfuel
    omega
  obtain ⟨hfirst, hnext⟩ := walk_spec h hlen
  rw [hfirst]
  exact Rbtree.Traversal.visit_eq _ fuel hnext h.zero_notMem hfuel

/-- In a subtree the children come before their parent, and its root comes last. -/
theorem order_child {x y : ℕ} (h : Forest.Child kn c x y) : ∃ A B C, order kn c = A ++ x :: B ++ y :: C := by
  unfold order
  rcases Forest.child_before h with ⟨hx, rfl⟩ | ⟨A, B, C, hpost⟩
  · obtain ⟨A, B, hpost⟩ := List.append_of_mem ((Forest.roots_sublist c).subset hx)
    exact ⟨A, B, [], by rw [hpost]⟩
  · exact ⟨A, B, C ++ [kn], by rw [hpost]; simp⟩

/-! ### What the walk reads -/

/-- The links, the parents and the types are the same. -/
structure SameShape (s s' : State) : Prop where
  siblings : s'.siblings = s.siblings
  nodes : ∀ p node, s.heap p = some node → ∃ node', s'.heap p = some node' ∧ node'.parent = node.parent ∧
    node'.type = node.type

theorem SameShape.refl (s : State) : SameShape s s := ⟨rfl, fun _ node h => ⟨node, h, rfl, rfl⟩⟩

theorem SameShape.trans {s'' : State} (h : SameShape s s') (h' : SameShape s' s'') : SameShape s s'' := by
  refine ⟨h'.siblings.trans h.siblings, fun p node hp => ?_⟩
  obtain ⟨node', hp', hpar, htype⟩ := h.nodes p node hp
  obtain ⟨node'', hp'', hpar', htype'⟩ := h'.nodes p node' hp'
  exact ⟨node'', hp'', hpar'.trans hpar, htype'.trans htype⟩

theorem SameShape.nodeRep (h : SameShape s s') (hp : NodeRep s par p c) : NodeRep s' par p c := by
  obtain ⟨hne, node, hlive, hpar, hdir, hfile⟩ := hp
  obtain ⟨node', hlive', hpar', htype'⟩ := h.nodes p node hlive
  refine ⟨hne, node', hlive', hpar'.trans hpar, fun ht => ?_, fun ht => hfile (htype' ▸ ht)⟩
  unfold Sorted
  rw [h.siblings]
  exact hdir (htype' ▸ ht)

theorem SameShape.rep (h : SameShape s s') : ∀ {f : Forest ℕ} {par : ℕ}, Rep s par f → Rep s' par f
  | .nil, _, _ => trivial
  | .cons _ _ _, _, ⟨hp, hc, hr⟩ => ⟨h.nodeRep hp, h.rep hc, h.rep hr⟩

theorem SameShape.subtree (h : SameShape s s') (ht : Subtree s kn c) : Subtree s' kn c := by
  obtain ⟨⟨par, hp⟩, hc, hnd⟩ := ht
  exact ⟨⟨par, h.nodeRep hp⟩, h.rep hc, hnd⟩

theorem rep_live : ∀ {f : Forest ℕ} {par x : ℕ}, Rep s par f → x ∈ f.nodes → ∃ node, s.heap x = some node
  | .cons p c r, par, x, ⟨hp, hc, hr⟩, hx => by
    rw [Forest.nodes, List.mem_cons, List.mem_append] at hx
    rcases hx with rfl | hx | hx
    · obtain ⟨-, node, hlive, -⟩ := hp
      exact ⟨node, hlive⟩
    · exact rep_live hc hx
    · exact rep_live hr hx

theorem Subtree.live (h : Subtree s kn c) {x : ℕ} (hx : x ∈ order kn c) : ∃ node, s.heap x = some node := by
  obtain ⟨⟨par, hp⟩, hc, -⟩ := h
  rw [(order_perm kn c).mem_iff, List.mem_cons] at hx
  rcases hx with rfl | hx
  · obtain ⟨-, node, hlive, -⟩ := hp
    exact ⟨node, hlive⟩
  · exact rep_live hc hx

end HardStack.Bsfs.Walk
