import HardStack.Bsfs.Put
import HardStack.Bsfs.Walk
import HardStack.Rbtree.Run

/-! # Removing a subtree

`bsfs_remove` deactivates a subtree in postorder, and then takes away its first node in postorder again
and again. Each node is unlinked and loses its base reference; what has another one stays in memory. A
node without time stamps whose parent has some is where it goes wrong. -/

namespace HardStack.Bsfs.Remove

open HardStack.Bsfs.Model HardStack.Bsfs.Walk HardStack.Bsfs.Put HardStack.Lib.Forest
open HardStack.Lib.RefCount HardStack.Lib.RbTree
open HardStack.Rbtree.Model (rbErase)
open HardStack.Rbtree.Layout (TreeOf rep_congr Same)

variable {s₀ s s₁ s' : State} {held held' : ℕ → ℕ} {F F₀ F₁ F' : Finset ℕ} {pend : Multiset ℕ}
  {r kn x y q n fuel par : ℕ} {rank now : ℕ → ℕ} {node node₀ : Node} {c c' c₀ f f' : Forest ℕ}
  {A L M : List ℕ}

/-! ### Deactivation -/

/-- What the first loop makes of a node. -/
def deactivated (node : Node) : Node :=
  if node.isActive then { node with active := node.active + BS_DEACTIVATED_BIAS } else node

/-- The state with these nodes deactivated. -/
def withDeactivated (s : State) (L : List ℕ) : State :=
  { s with heap := fun p => if p ∈ L then (s.heap p).map deactivated else s.heap p }

theorem deactivated_alike (node : Node) : Alike node (deactivated node) ∧
    (deactivated node).count = node.count := by
  unfold deactivated
  split_ifs
  · exact ⟨⟨rfl, rfl, rfl, rfl, rfl, rfl⟩, rfl⟩
  · exact ⟨Alike.refl node, rfl⟩

theorem withDeactivated_of_mem (hx : x ∈ L) (hnode : s.heap x = some node) :
    (withDeactivated s L).heap x = some (deactivated node) := by
  show (if x ∈ L then (s.heap x).map deactivated else s.heap x) = _
  rw [if_pos hx, hnode]
  rfl

theorem withDeactivated_of_notMem (hx : x ∉ L) : (withDeactivated s L).heap x = s.heap x := if_neg hx

theorem withDeactivated_shape (s : State) (L : List ℕ) : SameShape s (withDeactivated s L) := by
  refine ⟨rfl, fun p node hp => ?_⟩
  by_cases hL : p ∈ L
  · have halike := (deactivated_alike node).1
    exact ⟨_, withDeactivated_of_mem hL hp, halike.parent, halike.type⟩
  · exact ⟨node, (withDeactivated_of_notMem hL).trans hp, rfl, rfl⟩

theorem withDeactivated_concat (hx : x ∉ L) (hnode : s.heap x = some node) :
    withDeactivated s (L ++ [x]) = (if node.isActive then (withDeactivated s L).set x
      { node with active := node.active + BS_DEACTIVATED_BIAS } else withDeactivated s L) := by
  have hset : withDeactivated s (L ++ [x]) = (withDeactivated s L).set x (deactivated node) := by
    unfold withDeactivated State.set
    congr 1
    funext p
    by_cases hp : p = x
    · subst hp
      rw [if_pos (List.mem_append_right _ (List.mem_singleton_self p)), hnode, Function.update_self]
      rfl
    · rw [Function.update_of_ne hp]
      simp only [List.mem_append, List.mem_singleton, hp, or_false]
  rw [hset]
  unfold deactivated
  split_ifs
  · rfl
  · have hsame : (withDeactivated s L).heap x = some node := (withDeactivated_of_notMem hx).trans hnode
    unfold State.set
    rw [← hsame, Function.update_eq_self]

/-- The loop runs through the rest `M` of the sequence. -/
theorem deactivateLoop_spec (h : Subtree s kn c) (hfuel : c.postorder.length < fuel) :
    ∀ (M : List ℕ) (n : ℕ) (L : List ℕ) (pos : ℕ), M.length < n → L ++ M = order kn c →
      pos = L.getLastD 0 →
      deactivateLoop fuel kn n (withDeactivated s L) pos = some (withDeactivated s (L ++ M))
  | M, 0, _, _, hn, _, _ => absurd hn (Nat.not_lt_zero _)
  | M, n + 1, L, pos, hn, horder, hpos => by
    have hshape := withDeactivated_shape s L
    obtain ⟨hfirst, hnext⟩ := walk_spec (hshape.subtree h) hfuel
    have hstep : nextDescendantPost fuel (withDeactivated s L) pos kn = some (M.headD 0) := by
      rcases List.eq_nil_or_concat' L with rfl | ⟨A, x, rfl⟩
      · rw [hpos, ← horder] at *
        exact hfirst
      · rw [hpos, List.getLastD_concat]
        exact hnext A x M (by rw [← horder]; simp)
    unfold deactivateLoop
    rw [hstep]
    show (if M.headD 0 = 0 then _ else _) = _
    cases M with
    | nil => rw [List.headD_nil, if_pos rfl, List.append_nil]
    | cons x M =>
      have hx : x ∈ order kn c := by
        rw [← horder]
        simp
      have hne : x ≠ 0 := fun h0 => h.zero_notMem (h0 ▸ hx)
      obtain ⟨node, hnode⟩ := h.live hx
      have hnd : (L ++ x :: M).Nodup := by
        rw [horder, (order_perm kn c).nodup_iff]
        exact h.nodup
      have hxL : x ∉ L := fun hmem => List.disjoint_of_nodup_append hnd hmem List.mem_cons_self
      have hrest := deactivateLoop_spec h hfuel M n (L ++ [x]) x (Nat.lt_of_succ_lt_succ hn)
        (by rw [List.append_assoc]; exact horder) (List.getLastD_concat ..).symm
      rw [withDeactivated_concat hxL hnode, List.append_assoc] at hrest
      rw [List.headD_cons, if_neg hne, withDeactivated_of_notMem hxL, hnode]
      exact hrest

/-! ### What a round writes -/

/-- The nodes are alike and have the same counts; other nodes than `x` stay as active as they are. -/
structure Edit (x : ℕ) (s s' : State) : Prop where
  nodes : ∀ y node, s.heap y = some node → ∃ node', s'.heap y = some node' ∧ Alike node node' ∧
    node'.count = node.count ∧ (y ≠ x → node'.active = node.active)
  none : ∀ y, s.heap y = none → s'.heap y = none
  inoIdr : s'.inoIdr = s.inoIdr
  rootFreed : s'.rootFreed = s.rootFreed

theorem Edit.refl (x : ℕ) (s : State) : Edit x s s :=
  ⟨fun _ node h => ⟨node, h, Alike.refl node, rfl, fun _ => rfl⟩, fun _ h => h, rfl, rfl⟩

theorem Edit.trans (h : Edit x s s₁) (h' : Edit x s₁ s') : Edit x s s' where
  nodes y node hy := by
    obtain ⟨node₁, hy₁, halike, hcount, hactive⟩ := h.nodes y node hy
    obtain ⟨node', hy', halike', hcount', hactive'⟩ := h'.nodes y node₁ hy₁
    exact ⟨node', hy', halike.trans halike', hcount'.trans hcount,
      fun hne => (hactive' hne).trans (hactive hne)⟩
  none y hy := h'.none y (h.none y hy)
  inoIdr := h'.inoIdr.trans h.inoIdr
  rootFreed := h'.rootFreed.trans h.rootFreed

/-- A node is written. -/
theorem edit_set (hnode : s.heap y = some node) (halike : Alike node node₀) (hcount : node₀.count = node.count)
    (hactive : y ≠ x → node₀.active = node.active) : Edit x s (s.set y node₀) where
  nodes z node' hz := by
    by_cases hzy : z = y
    · subst hzy
      rw [hnode] at hz
      cases hz
      exact ⟨node₀, Function.update_self .., halike, hcount, hactive⟩
    · exact ⟨node', (Function.update_of_ne hzy ..).trans hz, Alike.refl node', rfl, fun _ => rfl⟩
  none z hz := by
    have hzy : z ≠ y := by
      rintro rfl
      rw [hnode] at hz
      cases hz
    exact (Function.update_of_ne hzy ..).trans hz
  inoIdr := rfl
  rootFreed := rfl

theorem Edit.counted (h : Edit x s s') (hc : Counted s₀ held F pend s) : Counted s₀ held F pend s' where
  live y hy := by
    obtain ⟨node₀, node, hnode₀, hnode, halike, hcount⟩ := hc.live y hy
    obtain ⟨node', hnode', halike', hcount', -⟩ := h.nodes y node hnode
    exact ⟨node₀, node', hnode₀, hnode', halike.trans halike', hcount'.trans hcount⟩
  pos := hc.pos
  pend := hc.pend
  closed := hc.closed
  idr y hy := by
    rw [h.inoIdr]
    exact hc.idr y hy
  root hfreed := hc.root (h.rootFreed ▸ hfreed)

theorem Edit.shape (h : Edit x s s') (hsib : s'.siblings = s.siblings) : SameShape s s' := by
  refine ⟨hsib, fun p node hp => ?_⟩
  obtain ⟨node', hp', halike, -⟩ := h.nodes p node hp
  exact ⟨node', hp', halike.parent, halike.type⟩

theorem bsfsGet_spec (h : Counted s₀ held F pend s) (hx : x ∈ F) (hne : x ≠ 0) : ∃ s₁,
    bsfsGet s x = some s₁ ∧ Counted s₀ held F (x ::ₘ pend) s₁ ∧ Drops s₀ held s F s₁ F ∧
      s₁.inoIdr = s.inoIdr := by
  obtain ⟨node₀, node, hnode₀, hnode, halike, hcount⟩ := h.live x hx
  have hdrop := refs_drop (refsOut s₀) held F pend x
  refine ⟨s.set x { node with count := node.count + 1 }, ?_, ⟨fun y hy => ?_, fun y hy => ?_, fun y hy => ?_,
    h.closed, h.idr, h.root⟩, h.drops_set hx hnode _, rfl⟩
  · unfold bsfsGet
    rw [if_neg hne, hnode]
    rfl
  · by_cases hyx : y = x
    · subst hyx
      refine ⟨node₀, _, hnode₀, Function.update_self .., ⟨halike.parent, halike.type, halike.target,
        halike.ino, halike.activated, halike.iattr⟩, ?_⟩
      show node.count + 1 = _
      rw [hdrop, if_pos rfl, hcount]
      push_cast
      rfl
    · obtain ⟨node₁, node', hnode₁, hnode', halike', hcount'⟩ := h.live y hy
      refine ⟨node₁, node', hnode₁, (Function.update_of_ne hyx ..).trans hnode', halike', ?_⟩
      rw [hdrop, if_neg hyx, hcount']
      rfl
  · have := h.pos y hy
    rw [hdrop]
    omega
  · rcases Multiset.mem_cons.mp hy with rfl | hy
    · exact hx
    · exact h.pend y hy

/-- The parent of a node is in memory. -/
def ParentLive (s : State) (node : Node) : Prop := node.parent ≠ 0 → ∃ par, s.heap node.parent = some par

theorem drain_spec (hnode : s.heap x = some node) (hpar : ParentLive s node) : ∃ s',
    drain s x = some s' ∧ Edit x s s' ∧ s'.siblings = s.siblings ∧
      s'.heap x = some { node with active := BS_DEACTIVATED_BIAS } := by
  have hroot : bsfsRoot s x = some () := by
    unfold bsfsRoot
    rw [hnode]
    simp only [Option.bind_eq_bind, Option.bind_some]
    split_ifs with hne
    · obtain ⟨par, hpar⟩ := hpar hne
      rw [hpar]
      rfl
    · rw [hnode]
      rfl
  refine ⟨s.set x { node with active := BS_DEACTIVATED_BIAS }, ?_,
    edit_set hnode ⟨rfl, rfl, rfl, rfl, rfl, rfl⟩ rfl fun hne => absurd rfl hne, rfl, Function.update_self ..⟩
  unfold drain
  rw [hroot, hnode]
  rfl

/-- A node stands in the list of its parent. -/
structure Linked (fuel : ℕ) (s : State) (x q : ℕ) (L : List ℕ) : Prop where
  sorted : Sorted s q L
  mem : x ∈ L
  balanced : ∀ t, TreeOf (s.siblings q) t → t.RedBlack
  fuel : L.length ≤ fuel

theorem unlinkSibling_spec (hnode : s.heap x = some node) (hpar : ParentLive s node)
    (hne : node.parent ≠ 0) (hlinked : Linked fuel s x node.parent L) : ∃ s',
    unlinkSibling fuel s x = some (true, s') ∧ Edit 0 s s' ∧
      (∀ d, d ≠ node.parent → s'.siblings d = s.siblings d) ∧ Sorted s' node.parent (L.erase x) ∧
      ∀ t, TreeOf (s'.siblings node.parent) t → t.RedBlack := by
  obtain ⟨⟨t, ht, hin⟩, hx, hbal, hfuel⟩ := hlinked
  obtain ⟨par, hpar⟩ := hpar hne
  have hxt : x ∈ t.inorder := hin ▸ hx
  obtain ⟨rb, t', hrun, ht', hrb, hin', -⟩ := Rbtree.Erase.rbEraseWith_spec Rbtree.Model.dummyCallbacks
    (Rbtree.Callbacks.eraseRule_true _) fuel ht trivial (hbal t ht) hxt (hin ▸ hfuel)
  have hgone : x ∉ t'.inorder := by
    rw [hin', ht.nodup.mem_erase_iff]
    exact fun h => h.1 rfl
  have hclear : TreeOf (rb.setPc x x) t' := by
    refine ⟨ht'.root, rep_congr (fun y hy => ?_) ht'.tree, ht'.nodup⟩
    have hyx : y ≠ x := fun he => hgone (he ▸ hy)
    exact ⟨Function.update_of_ne hyx .., fun _ => rfl⟩
  have hempty : rbEmptyNode s node x = false :=
    decide_eq_false (Rbtree.Neighbour.not_empty_node ht hxt)
  -- the count of directories
  obtain ⟨s₁, hs₁, hedit, hsib⟩ : ∃ s₁, (if node.type = .dir then
      s.set node.parent { par with subdirs := (par.subdirs + (2 ^ 64 - 1)) % 2 ^ 64 } else s) = s₁ ∧
      Edit 0 s s₁ ∧ s₁.siblings = s.siblings := by
    split_ifs
    · exact ⟨_, rfl, edit_set hpar ⟨rfl, rfl, rfl, rfl, rfl, rfl⟩ rfl fun _ => rfl, rfl⟩
    · exact ⟨s, rfl, Edit.refl 0 s, rfl⟩
  refine ⟨{ s₁ with siblings := Function.update s₁.siblings node.parent (rb.setPc x x) }, ?_,
    ⟨hedit.nodes, hedit.none, hedit.inoIdr, hedit.rootFreed⟩, fun d hd => ?_, ⟨t', ?_, ?_⟩, fun t₁ ht₁ => ?_⟩
  · unfold unlinkSibling
    rw [hnode]
    simp only [Option.bind_eq_bind, Option.bind_some, hempty, Bool.false_eq_true, if_false, hpar, hs₁]
    unfold rbErase
    rw [hsib, hrun]
    rfl
  · rw [← hsib]
    exact Function.update_of_ne hd ..
  · show TreeOf (Function.update s₁.siblings node.parent (rb.setPc x x) node.parent) t'
    rw [Function.update_self]
    exact hclear
  · rw [hin', hin]
  · have ht₁ : TreeOf (Function.update s₁.siblings node.parent (rb.setPc x x) node.parent) t₁ := ht₁
    rw [Function.update_self] at ht₁
    rw [Rbtree.Run.treeOf_unique ht₁ hclear]
    exact hrb

theorem stampTimes_spec (time : ℕ) (hnode : s.heap x = some node) (hpar : ParentLive s node)
    (hne : node.parent ≠ x)
    (hgood : ∀ par, node.parent ≠ 0 → s.heap node.parent = some par → par.iattr.isSome → node.iattr.isSome) :
    ∃ s', stampTimes time s x = some s' ∧ Edit 0 s s' ∧ s'.siblings = s.siblings := by
  unfold stampTimes
  rw [hnode]
  simp only [Option.bind_eq_bind, Option.bind_some]
  split_ifs with h0
  · exact ⟨s, rfl, Edit.refl 0 s, rfl⟩
  obtain ⟨par, hpar⟩ := hpar h0
  rw [hpar]
  simp only [Option.bind_some]
  split_ifs with hnone
  · exact ⟨s, rfl, Edit.refl 0 s, rfl⟩
  obtain ⟨ps, hps⟩ := Option.ne_none_iff_exists'.mp hnone
  obtain ⟨iattr, hiattr⟩ := Option.isSome_iff_exists.mp (hgood par h0 hpar (by rw [hps]; rfl))
  rw [hiattr]
  simp only [Option.bind_some]
  have hpar₁ : (s.set x { node with iattr := some { iattr with ctime := time } }).heap node.parent = some par :=
    (Function.update_of_ne hne ..).trans hpar
  rw [hpar₁]
  simp only [Option.bind_some, hps]
  have hedit : Edit 0 s (s.set x { node with iattr := some { iattr with ctime := time } }) :=
    edit_set hnode ⟨rfl, rfl, rfl, rfl, rfl, by rw [hiattr]; rfl⟩ rfl fun _ => rfl
  have halike : Alike par { par with iattr := some { ps with mtime := ps.ctime } } :=
    ⟨rfl, rfl, rfl, rfl, rfl, by rw [hps]; rfl⟩
  exact ⟨_, rfl, hedit.trans (edit_set hpar₁ halike rfl fun _ => rfl), rfl⟩

/-- A node without time stamps, under one that has some. -/
theorem stampTimes_none {par : Node} (time : ℕ) (hnode : s.heap x = some node) (hne : node.parent ≠ 0)
    (hpar : s.heap node.parent = some par) (hps : par.iattr.isSome) (hiattr : node.iattr = none) :
    stampTimes time s x = none := by
  have hsome : par.iattr ≠ none := Option.isSome_iff_ne_none.mp hps
  unfold stampTimes
  rw [hnode]
  simp only [Option.bind_eq_bind, Option.bind_some]
  rw [if_neg hne, hpar]
  simp only [Option.bind_some]
  rw [if_neg hsome, hiattr]
  rfl

/-! ### A round -/

/-- The node has time stamps. -/
def stamped (s : State) (x : ℕ) : Bool := (s.heap x).elim false (·.iattr.isSome)

/-- How the nodes in `F` are after the active references of `x` have gone. -/
def Drained (x : ℕ) (s : State) (F : Finset ℕ) (s' : State) : Prop := ∀ y ∈ F, ∃ node node',
  s.heap y = some node ∧ s'.heap y = some node' ∧ Alike node node' ∧
    (y ≠ x → node'.active = node.active) ∧ (y = x → node'.active = BS_DEACTIVATED_BIAS)

/-- What is known before a round about the node `x`. -/
structure Ready (s₀ : State) (held : ℕ → ℕ) (F : Finset ℕ) (fuel kn x : ℕ) (L : List ℕ) (s : State) : Prop where
  counted : Counted s₀ held F 0 s
  mem : x ∈ F
  root : kn ∈ F
  leftmost : leftmostDescendant fuel s kn = some x
  activated : ∀ node, s.heap kn = some node → node.activated = true
  linked : parentOf s₀ x ≠ 0 → Linked fuel s x (parentOf s₀ x) L

/-- What a round does to the lists of children: the node leaves that of its parent. -/
structure Detached (s₀ : State) (x : ℕ) (L : List ℕ) (s s' : State) : Prop where
  other : ∀ d, d ≠ parentOf s₀ x → s'.siblings d = s.siblings d
  sorted : parentOf s₀ x ≠ 0 → Sorted s' (parentOf s₀ x) (L.erase x)
  balanced : parentOf s₀ x ≠ 0 → ∀ t, TreeOf (s'.siblings (parentOf s₀ x)) t → t.RedBlack

theorem Detached.of_siblings (h : Detached s₀ x L s s₁) (hsib : s'.siblings = s₁.siblings) :
    Detached s₀ x L s s' where
  other d hd := (congrFun hsib d).trans (h.other d hd)
  sorted hne := by
    unfold Sorted
    rw [hsib]
    exact h.sorted hne
  balanced hne := by
    rw [hsib]
    exact h.balanced hne

theorem parentOf_eq (hnode₀ : s₀.heap x = some node₀) (halike : Alike node₀ node) :
    node.parent = parentOf s₀ x := by
  unfold parentOf
  rw [hnode₀]
  exact halike.parent

theorem stamped_eq (hnode₀ : s₀.heap x = some node₀) (halike : Alike node₀ node) :
    node.iattr.isSome = stamped s₀ x := by
  unfold stamped
  rw [hnode₀]
  exact halike.iattr

/-- The parent of a node in `F` is in `F`. -/
theorem parent_mem (h : Counted s₀ held F pend s) (hx : x ∈ F) (hne : parentOf s₀ x ≠ 0) : parentOf s₀ x ∈ F :=
  h.closed x hx _ (Multiset.mem_add.mpr (Or.inl (mem_ref.mpr ⟨rfl, hne⟩)))

theorem parentLive (h : Counted s₀ held F pend s) (hx : x ∈ F) (hnode₀ : s₀.heap x = some node₀)
    (halike : Alike node₀ node) : ParentLive s node := by
  intro hne
  rw [parentOf_eq hnode₀ halike] at hne ⊢
  obtain ⟨-, par, -, hpar, -⟩ := h.live _ (parent_mem h hx hne)
  exact ⟨par, hpar⟩

/-- The part of a round before the time stamps. -/
theorem removeRound_detached (now : ℕ → ℕ) (hh : Hierarchy s₀ F₀ r rank) (hF : F ⊆ F₀)
    (h : Ready s₀ held F fuel kn x L s) : ∃ s₃,
    removeRound fuel now kn s = ((stampTimes (now x) s₃ x).bind fun s =>
      (bsfsPut fuel s x).bind fun s => (bsfsPut fuel s x).bind fun s => some (s, x)) ∧
    Counted s₀ held F (x ::ₘ 0) s₃ ∧ Drained x s F s₃ ∧ (∀ y, s.heap y = none → s₃.heap y = none) ∧
    s₃.inoIdr = s.inoIdr ∧ Detached s₀ x L s s₃ := by
  have hx0 : x ≠ 0 := hh.ne_zero x (hF h.mem)
  obtain ⟨s₁, hget, h₁, hdrops, hidr⟩ := bsfsGet_spec h.counted h.mem hx0
  obtain ⟨node₀, node₁, hnode₀, hnode₁, halike, -⟩ := h₁.live x h.mem
  -- the wait
  obtain ⟨s₂, hdrain, hedit₂, hsib₂, hnode₂⟩ := drain_spec hnode₁ (parentLive h₁ h.mem hnode₀ halike)
  have hdrained : drainActivated s₁ kn x = some s₂ := by
    obtain ⟨node, n, hnode, hkn⟩ := hdrops.kept kn h.root
    have hact : ({ node with count := n } : Node).activated = true := h.activated node hnode
    unfold drainActivated
    rw [hkn]
    simp only [Option.bind_eq_bind, Option.bind_some]
    rw [hact, if_pos rfl]
    exact hdrain
  have h₂ := hedit₂.counted h₁
  have halike₂ : Alike node₀ { node₁ with active := BS_DEACTIVATED_BIAS } :=
    ⟨halike.parent, halike.type, halike.target, halike.ino, halike.activated, halike.iattr⟩
  have hpar := parentOf_eq hnode₀ halike₂
  have hsib : s₂.siblings = s.siblings := hsib₂.trans hdrops.siblings
  -- the list of the parent
  obtain ⟨s₃, hdetach, hedit₃, hdetached⟩ : ∃ s₃, detach fuel s₂ x = some (true, s₃) ∧ Edit 0 s₂ s₃ ∧
      Detached s₀ x L s s₃ := by
    unfold detach
    rw [hnode₂]
    simp only [Option.bind_eq_bind, Option.bind_some]
    split_ifs with hzero
    · exact ⟨s₂, rfl, Edit.refl 0 s₂, fun d _ => congrFun hsib d, fun hne => absurd (hpar ▸ hzero) hne,
        fun hne => absurd (hpar ▸ hzero) hne⟩
    · have hlinked : Linked fuel s₂ x node₁.parent L := by
        have hlinked := h.linked (hpar ▸ hzero)
        rw [← hpar] at hlinked
        refine ⟨?_, hlinked.mem, ?_, hlinked.fuel⟩
        · unfold Sorted
          rw [hsib]
          exact hlinked.sorted
        · rw [hsib]
          exact hlinked.balanced
      obtain ⟨s₃, hrun, hedit, hother, hsorted, hbal⟩ := unlinkSibling_spec hnode₂
        (parentLive h₂ h.mem hnode₀ halike₂) hzero hlinked
      refine ⟨s₃, hrun, hedit, fun d hd => ?_, fun _ => hpar ▸ hsorted, fun _ => hpar ▸ hbal⟩
      rw [hother d (hpar ▸ hd), hsib]
  refine ⟨s₃, ?_, hedit₃.counted h₂, fun y hy => ?_, fun y hy => ?_, ?_, hdetached⟩
  · unfold removeRound
    rw [h.leftmost]
    simp only [Option.bind_eq_bind, Option.bind_some, hget, hdrained]
    unfold dropBase
    rw [hdetach]
    simp only [Option.bind_eq_bind, Option.bind_some, if_true, Option.bind_assoc]
  · obtain ⟨node, n, hnode, hkept⟩ := hdrops.kept y hy
    obtain ⟨node', hnode', halike', -, hactive'⟩ := hedit₂.nodes y _ hkept
    obtain ⟨node'', hnode'', halike'', -, hactive''⟩ := hedit₃.nodes y node' hnode'
    have hy0 : y ≠ 0 := hh.ne_zero y (hF hy)
    have hcount : Alike node { node with count := n } := ⟨rfl, rfl, rfl, rfl, rfl, rfl⟩
    refine ⟨node, node'', hnode, hnode'', (hcount.trans halike').trans halike'', fun hne => ?_, fun heq => ?_⟩
    · exact (hactive'' hy0).trans (hactive' hne)
    · subst heq
      rw [hnode₂] at hnode'
      cases hnode'
      exact hactive'' hy0
  · have hy₁ : s₁.heap y = none := by
      by_cases hmem : y ∈ F
      · obtain ⟨-, node, -, hnode, -⟩ := h.counted.live y hmem
        rw [hy] at hnode
        cases hnode
      · exact (hdrops.frame y hmem).trans hy
    exact hedit₃.none y (hedit₂.none y hy₁)
  · rw [hedit₃.inoIdr, hedit₂.inoIdr, hidr]

/-- **What a round does**: `x` has lost its base reference and its active ones, and the nodes without a
reference are freed. -/
structure Rounded (s₀ : State) (held' : ℕ → ℕ) (x : ℕ) (s : State) (F : Finset ℕ) (s' : State)
    (F' : Finset ℕ) : Prop where
  counted : Counted s₀ held' F' 0 s'
  subset : F' ⊆ F
  idle : ∀ y ∈ F, y ∉ F' → held' y = 0
  gone : ∀ y ∈ F, y ∉ F' → s'.heap y = none ∧ s'.inoIdr (inoOf s₀ y) = 0
  kept : Drained x s F' s'
  none : ∀ y, y ∉ F → s.heap y = none → s'.heap y = none
  zero : ∀ i, s.inoIdr i = 0 → s'.inoIdr i = 0

/-- Removing may go on at the node: it has time stamps if its parent has. -/
def Stampable (s₀ : State) (x : ℕ) : Prop := parentOf s₀ x ≠ 0 → stamped s₀ (parentOf s₀ x) → stamped s₀ x

theorem removeRound_spec (now : ℕ → ℕ) (hh : Hierarchy s₀ F₀ r rank) (hF : F ⊆ F₀)
    (hfuel : F₀.card ≤ fuel) (h : Ready s₀ held F fuel kn x L s)
    (hheld : ∀ y, held y = held' y + if y = x then 1 else 0) (hgood : Stampable s₀ x) :
    ∃ s' F', removeRound fuel now kn s = some (s', x) ∧ Rounded s₀ held' x s F s' F' ∧
      Detached s₀ x L s s' := by
  obtain ⟨s₃, hround, h₃, hdrained, hnone, hidr, hdetached⟩ := removeRound_detached now hh hF h
  obtain ⟨node₀, node₃, hnode₀, hnode₃, halike, -⟩ := h₃.live x h.mem
  have hpar := parentOf_eq hnode₀ halike
  have hself : node₃.parent ≠ x := by
    intro he
    have hx0 := hh.ne_zero x (hF h.mem)
    have hlt := hh.rank x (hF h.mem) (by rw [← hpar, he]; exact hx0)
    rw [← hpar, he] at hlt
    exact lt_irrefl _ hlt
  -- the time stamps
  obtain ⟨s₄, hstamp, hedit₄, hsib₄⟩ := stampTimes_spec (now x) hnode₃ (parentLive h₃ h.mem hnode₀ halike) hself
    fun par hne hpnode hps => by
      rw [hpar] at hne hpnode
      obtain ⟨par₀, par', hpar₀, hpar', halikep, -⟩ := h₃.live _ (parent_mem h₃ h.mem hne)
      rw [hpnode] at hpar'
      cases hpar'
      rw [stamped_eq hnode₀ halike]
      exact hgood hne (by rw [← stamped_eq hpar₀ halikep]; exact hps)
  have h₄ := hedit₄.counted h₃
  -- the base reference
  have h₄' : Counted s₀ held' F (x ::ₘ x ::ₘ 0) s₄ := by
    have hrefs := refs_unhold (refsOut s₀) F (x ::ₘ 0) hheld
    refine ⟨fun y hy => ?_, fun y hy => ?_, fun y hy => ?_, h₄.closed, h₄.idr, h₄.root⟩
    · rw [hrefs]
      exact h₄.live y hy
    · rw [hrefs]
      exact h₄.pos y hy
    · rcases Multiset.mem_cons.mp hy with rfl | hy
      · exact h.mem
      · exact h₄.pend y hy
  obtain ⟨s₅, F₅, hput₅, h₅, hdrops₅⟩ := bsfsPut_spec hh h₄' hF ((Finset.card_le_card hF).trans hfuel)
  have hF₅ : F₅ ⊆ F₀ := hdrops₅.subset.trans hF
  obtain ⟨s', F', hput, h', hdrops'⟩ := bsfsPut_spec hh h₅ hF₅ ((Finset.card_le_card hF₅).trans hfuel)
  have hdrops := hdrops₅.trans hdrops'
  refine ⟨s', F', ?_, ⟨h', hdrops.subset, hdrops.idle, hdrops.gone, fun y hy => ?_, fun y hyF hy => ?_,
    fun i hi => ?_⟩, hdetached.of_siblings (hdrops.siblings.trans hsib₄)⟩
  · rw [hround, hstamp]
    simp only [Option.bind_some, hput₅, hput]
  · obtain ⟨node₄, n, hnode₄, hnode'⟩ := hdrops.kept y hy
    have hyF := hdrops.subset hy
    obtain ⟨node, node', hnode, hnode'', halike', hactive, hself'⟩ := hdrained y hyF
    obtain ⟨node₅, hnode₅, halike₅, -, hactive₅⟩ := hedit₄.nodes y node' hnode''
    rw [hnode₅] at hnode₄
    cases hnode₄
    have hy0 : y ≠ 0 := hh.ne_zero y (hF hyF)
    have hcount : Alike node₄ { node₄ with count := n } := ⟨rfl, rfl, rfl, rfl, rfl, rfl⟩
    exact ⟨node, _, hnode, hnode', (halike'.trans halike₅).trans hcount,
      fun hne => (hactive₅ hy0).trans (hactive hne), fun heq => (hactive₅ hy0).trans (hself' heq)⟩
  · rw [hdrops.frame y hyF]
    exact hedit₄.none y (hnone y hy)
  · refine hdrops.zero i ?_
    rw [hedit₄.inoIdr, hidr]
    exact hi

theorem removeRound_none (now : ℕ → ℕ) (hh : Hierarchy s₀ F₀ r rank) (hF : F ⊆ F₀)
    (h : Ready s₀ held F fuel kn x L s) (hbad : ¬ Stampable s₀ x) : removeRound fuel now kn s = none := by
  obtain ⟨s₃, hround, h₃, -⟩ := removeRound_detached now hh hF h
  unfold Stampable at hbad
  push Not at hbad
  obtain ⟨hne, hps, hstamped⟩ := hbad
  obtain ⟨node₀, node₃, hnode₀, hnode₃, halike, -⟩ := h₃.live x h.mem
  obtain ⟨par₀, par, hpar₀, hpar, halikep, -⟩ := h₃.live _ (parent_mem h₃ h.mem hne)
  have heq := parentOf_eq hnode₀ halike
  rw [hround, stampTimes_none (now x) hnode₃ (by rw [heq]; exact hne) (by rw [heq]; exact hpar)
    (by rw [stamped_eq hpar₀ halikep]; exact hps)
    (by rw [← Option.not_isSome_iff_eq_none, stamped_eq hnode₀ halike]; exact hstamped)]
  rfl

end HardStack.Bsfs.Remove
