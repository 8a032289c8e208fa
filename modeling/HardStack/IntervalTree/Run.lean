import HardStack.Rbtree.Run
import HardStack.Rbtree.Neighbour
import HardStack.IntervalTree.Augment

/-! # Runs of insertions and removals of intervals

`WellFormed`: the memory holds a red-black tree in the order of the start offsets, every
`rb_subtree_last` is the greatest last offset of the subtree, and `rb_leftmost` is the first node. The
walk of the insertion finds the place after all nodes that do not start later and raises what it
passes; then the tree is exact again before the rebalancing starts. -/

namespace HardStack.IntervalTree.Run

open HardStack.Lib.RbTree HardStack.Lib.SubtreeMax
open HardStack.Rbtree.Model HardStack.Rbtree.Layout HardStack.Rbtree.Callbacks
open HardStack.Rbtree.Run HardStack.Rbtree.Neighbour
open HardStack.IntervalTree.Model HardStack.IntervalTree.Augment

variable {A : Nodes} {s : State SubtreeLast} {t : CTree ℕ} {root : RootCached} {node fuel : ℕ}

/-- **A well-formed interval tree.** -/
structure WellFormed (A : Nodes) (root : RootCached) (t : CTree ℕ) : Prop where
  tree : TreeOf root.rbRoot t
  redBlack : t.RedBlack
  sorted : t.inorder.Pairwise fun a b => startPgoff A a ≤ startPgoff A b
  exact : Exact (lastPgoff A) root.rbRoot.aug.last t
  leftmost : root.rbLeftmost = t.inorder.headD 0
  ended : root.rbRoot.aug.ended = true

/-! ### The walk -/

theorem raiseLast_eq (s : State SubtreeLast) (p v : ℕ) :
    raiseLast s p v = s.augment { s.aug with last := raise s.aug.last v [p] } := by
  have hr : ∀ x, raise s.aug.last v [p] x =
      if s.aug.last p < v then Function.update s.aug.last p v x else s.aug.last x := by
    intro x
    unfold raise
    by_cases hx : x = p
    · subst hx
      simp only [List.mem_singleton, if_true, Function.update_self]
      split_ifs <;> omega
    · simp [hx]
  have hr' := funext hr
  unfold raiseLast SubtreeLast.set
  rw [hr']
  split_ifs <;> rfl

/-- The position of the hole below a context, `link` at its top. -/
def linkFrom (link : Link) : Ctx ℕ → Link
  | [] => link
  | f :: _ => .child f.dir f.ptr

/-- **The walk** down a tree `t` ends at a hole of it, between the nodes `P` that do not start later
and the nodes `S` that do. -/
theorem insertWalk_spec (start last : ℕ) : ∀ {t : CTree ℕ} {par n : ℕ} {s : State SubtreeLast}
    (link : Link) (b : Bool), Rep s par t → deref s link = ptr t → t.inorder.length < n →
    (t.inorder.Pairwise fun a b => startPgoff A a ≤ startPgoff A b) →
    ∃ (Z : Ctx ℕ) (P S : List ℕ), t = Z.fill .nil ∧ t.inorder = P ++ S ∧
      (∀ L, Z.around L = P ++ (L ++ S)) ∧ (∀ x ∈ P, startPgoff A x ≤ start) ∧
      (∀ x ∈ S, start < startPgoff A x) ∧
      insertWalk A start last n s link b =
        some (s.augment { s.aug with last := raise s.aug.last last (spine Z) }, linkFrom link Z,
          b && P.isEmpty)
  | _, _, 0, _, _, _, _, _, hn, _ => absurd hn (by omega)
  | .nil, par, n + 1, s, link, b, _, hlink, _, _ => by
    refine ⟨[], [], [], rfl, rfl, fun L => by simp [Ctx.around], by simp, by simp, ?_⟩
    rw [insertWalk]
    simp only [hlink, ptr_nil]
    rw [if_neg (by simp)]
    simp [linkFrom, spine, State.augment]
  | .node c l p r, par, n + 1, s, link, b, hrep, hlink, hn, hsort => by
    obtain ⟨hp, -, hcl, hcr, hl, hr⟩ := hrep
    have hin : (CTree.node c l p r).inorder = l.inorder ++ p :: r.inorder := rfl
    rw [hin, List.pairwise_append, List.pairwise_cons] at hsort
    obtain ⟨hsl, ⟨hpr, hsr⟩, hlr⟩ := hsort
    rw [hin, List.length_append, List.length_cons] at hn
    have hstep : insertWalk A start last (n + 1) s link b =
        if start < startPgoff A p then
          insertWalk A start last n (raiseLast s p last) (.child .left p) b
        else insertWalk A start last n (raiseLast s p last) (.child .right p) false := by
      rw [insertWalk]
      simp only [hlink, ptr]
      rw [if_pos hp.1]
    rw [hstep, raiseLast_eq]
    set s' := s.augment { s.aug with last := raise s.aug.last last [p] } with hs'
    have hsame : ∀ x, Same s s' x := fun x => ⟨rfl, fun _ => rfl⟩
    by_cases hlt : start < startPgoff A p
    · -- everything from `p` on starts later
      rw [if_pos hlt]
      obtain ⟨Z, P, S, rfl, hPS, har, hP, hS, hw⟩ := insertWalk_spec start last (n := n)
        (s := s') (.child .left p) b (rep_congr (fun x _ => hsame x) hl) hcl (by omega) hsl
      refine ⟨Z ++ [⟨.left, c, p, r⟩], P, S ++ p :: r.inorder, ?_, ?_, fun L => ?_, hP, ?_, ?_⟩
      · rw [Ctx.fill_append]; rfl
      · rw [hin, hPS, List.append_assoc]
      · rw [Ctx.around_append, har]
        show (P ++ (L ++ S)) ++ p :: r.inorder = _
        simp only [List.append_assoc]
      · intro x hx
        rcases List.mem_append.mp hx with hx | hx
        · exact hS x hx
        · rcases List.mem_cons.mp hx with rfl | hx
          · exact hlt
          · exact hlt.trans_le (hpr x hx)
      · rw [hw]
        have hsp : spine (Z ++ [⟨.left, c, p, r⟩]) = spine Z ++ [p] := by simp [spine]
        rw [hsp, ← raise_raise]
        cases Z <;> rfl
    · -- everything up to `p` does not
      rw [if_neg hlt]
      obtain ⟨Z, P, S, rfl, hPS, har, hP, hS, hw⟩ := insertWalk_spec start last (n := n)
        (s := s') (.child .right p) false (rep_congr (fun x _ => hsame x) hr) hcr (by omega) hsr
      refine ⟨Z ++ [⟨.right, c, p, l⟩], l.inorder ++ p :: P, S, ?_, ?_, fun L => ?_, ?_, hS, ?_⟩
      · rw [Ctx.fill_append]; rfl
      · rw [hin, hPS, List.append_assoc, List.cons_append]
      · rw [Ctx.around_append, har]
        show l.inorder ++ p :: (P ++ (L ++ S)) = _
        simp only [List.append_assoc, List.cons_append]
      · intro x hx
        have hle : startPgoff A p ≤ start := not_lt.mp hlt
        rcases List.mem_append.mp hx with hx | hx
        · exact (hlr x hx p List.mem_cons_self).trans hle
        · rcases List.mem_cons.mp hx with rfl | hx
          · exact hle
          · exact hP x hx
      · rw [hw]
        have hsp : spine (Z ++ [⟨.right, c, p, l⟩]) = spine Z ++ [p] := by simp [spine]
        rw [hsp, ← raise_raise]
        have hne : (l.inorder ++ p :: P).isEmpty = false := by
          cases l.inorder <;> rfl
        rw [hne, Bool.and_false, Bool.false_and]
        cases Z <;> rfl

/-! ### Insertion -/

theorem orderedInsert_eq {r : ℕ → ℕ → Prop} [DecidableRel r] : ∀ {P S : List ℕ},
    (∀ x ∈ P, ¬ r node x) → (∀ x ∈ S, r node x) →
    (P ++ S).orderedInsert r node = P ++ ([node] ++ S)
  | [], [], _, _ => rfl
  | [], x :: S, _, hS => List.orderedInsert_cons_of_le r S (hS x (by simp))
  | x :: P, S, hP, hS => by
    rw [List.cons_append, List.orderedInsert_of_not_le r _ (hP x (by simp)),
      orderedInsert_eq (fun y hy => hP y (by simp [hy])) hS]
    rfl

/-- The sequence with the node after all that do not start later. -/
def insertSeq (A : Nodes) (node : ℕ) (seq : List ℕ) : List ℕ :=
  seq.orderedInsert (fun a b => startPgoff A a < startPgoff A b) node

theorem headD_append {P S : List ℕ} : (P ++ ([node] ++ S)).headD 0 =
    if P.isEmpty then node else (P ++ S).headD 0 := by
  cases P <;> rfl

theorem intervalTreeInsert_spec (node fuel : ℕ) (h : WellFormed A root t) (hn : Addr node)
    (hfresh : node ∉ t.inorder) (hf : t.inorder.length + 2 ≤ fuel) :
    ∃ root' t', intervalTreeInsert A fuel root node = some root' ∧ WellFormed A root' t' ∧
      t'.inorder = insertSeq A node t.inorder := by
  obtain ⟨Z, P, S, rfl, hPS, har, hP, hS, hw⟩ := insertWalk_spec (startPgoff A node)
    (lastPgoff A node) (n := fuel) .root true h.tree.tree h.tree.root (by omega) h.sorted
  set s₁ := root.rbRoot.augment { root.rbRoot.aug with
    last := raise root.rbRoot.aug.last (lastPgoff A node) (spine Z) } with hs₁
  set s₂ := s₁.augment (s₁.aug.set node (lastPgoff A node)) with hs₂
  have hin : (Z.fill .nil).inorder = Z.around [] := Ctx.inorder_fill Z .nil
  have hnZ : node ∉ Z.ptrs := fun hx => hfresh (by rw [hin, Ctx.mem_around]; exact Or.inr hx)
  have hndZ : Z.ptrs.Nodup := by
    have := h.tree.nodup
    rw [hin, Ctx.nodup_around] at this
    exact this.2.1
  -- the tree with the new leaf is exact before the rebalancing
  have hkeeps : Keeps A (Z.around [node]).length.succ s₂.aug
      (Z.fill (.mk .left .red .nil node .nil)) := by
    refine ⟨exact_fill.mpr ⟨exact_mk.mpr ⟨?_, trivial, trivial⟩, ?_⟩, h.ended, ?_⟩
    · rw [hs₂, State.augment, SubtreeLast.last_set_self]
      simp
    · have hctx := ctxExact_raise (lastPgoff A node) hndZ (exact_fill.mp h.exact).2
      rw [maxOf_mk, maxOf_nil, Nat.max_self, Nat.max_zero]
      rw [maxOf_nil, Nat.zero_max] at hctx
      refine ctxExact_congr (fun x hx => ?_) hctx
      exact s₁.aug.last_set_of_ne _ fun h' => hnZ (h' ▸ hx)
    · rw [Ctx.inorder_fill]
      exact Nat.lt_succ_self _
  have hat : At s₂ Z .nil := ((at_iff.mpr h.tree).augment _).augment _
  have hlen := Ctx.length_le_around Z []
  rw [← hin] at hlen
  obtain ⟨s', t', hs', ht', hrb, hin', hQ⟩ := rbInsert_hole (augment A fuel)
    (augment_upkeep A _ fuel).insertRule fuel hat h.redBlack hn (by rwa [← hin]) hkeeps (by omega)
  have hlink : linkFrom .root Z = linkOf Z := by cases Z <;> rfl
  refine ⟨⟨s', if P.isEmpty then node else root.rbLeftmost⟩, t', ?_, ⟨ht', hrb, ?_, hQ.exact, ?_,
    hQ.ended⟩, ?_⟩
  · unfold intervalTreeInsert rbInsertAugmentedCached
    simp only [hw, Option.bind_eq_bind, Option.bind_some, Bool.true_and, hlink, ← hs₂, hs']
  · rw [hin', har]
    have hsort := h.sorted
    rw [hPS, List.pairwise_append] at hsort
    rw [List.singleton_append, List.pairwise_append, List.pairwise_cons]
    refine ⟨hsort.1, ⟨fun x hx => (hS x hx).le, hsort.2.1⟩, fun x hx y hy => ?_⟩
    rcases List.mem_cons.mp hy with rfl | hy
    · exact hP x hx
    · exact hsort.2.2 x hx y hy
  · rw [hin', har, headD_append, ← hPS, ← h.leftmost]
  · rw [hin', har, hPS]
    exact (orderedInsert_eq (r := fun a b => startPgoff A a < startPgoff A b)
      (fun x hx => not_lt.mpr (hP x hx)) hS).symm

/-! ### Removal -/

theorem intervalTreeRemove_spec (node fuel : ℕ) (h : WellFormed A root t)
    (hn : node ∈ t.inorder) (hf : t.inorder.length + 2 ≤ fuel) :
    ∃ root' t', intervalTreeRemove A fuel root node = some root' ∧ WellFormed A root' t' ∧
      t'.inorder = t.inorder.erase node := by
  have hkeeps : Keeps A (t.inorder.length + 1) root.rbRoot.aug t := ⟨h.exact, h.ended, by omega⟩
  obtain ⟨s', t', hs', ht', hrb, hin, hQ⟩ := Rbtree.Erase.rbEraseWith_spec (augment A fuel)
    (augment_eraseRule A (k := fuel) (by omega)) fuel h.tree hkeeps h.redBlack hn (by omega)
  obtain ⟨x, M, hM⟩ := List.exists_cons_of_ne_nil (List.ne_nil_of_mem hn)
  have hlm : root.rbLeftmost = x := by rw [h.leftmost, hM]; rfl
  have hcached : rbEraseAugmentedCached A fuel root node =
      some ⟨s', (t.inorder.erase node).headD 0⟩ := by
    unfold rbEraseAugmentedCached
    by_cases hx : x = node
    · -- the first node goes, and `rb_leftmost` moves on
      subst hx
      simp only [hlm, if_true, rbNext_first h.tree hM (show t.inorder.length < fuel by omega),
        Option.bind_eq_bind, Option.bind_some, hs']
      rw [hM, List.erase_cons_head]
    · simp only [hlm, if_neg hx, Option.bind_eq_bind, Option.bind_some, hs']
      rw [hM, List.erase_cons_tail (by simpa using hx)]
      rfl
  refine ⟨⟨s', (t.inorder.erase node).headD 0⟩, t', ?_, ⟨ht', hrb, ?_, hQ.exact, by rw [hin],
    hQ.ended⟩, hin⟩
  · unfold intervalTreeRemove
    rw [hcached]
    simp only [Option.bind_eq_bind, Option.bind_some, hQ.ended, if_true]
  · rw [hin]
    exact h.sorted.sublist List.erase_sublist

/-! ### Runs -/

/-- The cached root with the nodes in memory, and the nodes in the order that the calls so far ask
for. -/
structure System where
  root : RootCached
  seq : List ℕ

/-- One call: the insertion of a node that is not in the tree, or the removal of one that is. The
loops get fuel for the nodes of the tree. -/
inductive Step (A : Nodes) : System → System → Prop
  | insert {root root' : RootCached} {seq : List ℕ} {node fuel : ℕ} (hn : Addr node)
      (hfresh : node ∉ seq) (hf : seq.length + 2 ≤ fuel)
      (h : intervalTreeInsert A fuel root node = some root') :
      Step A ⟨root, seq⟩ ⟨root', insertSeq A node seq⟩
  | remove {root root' : RootCached} {seq : List ℕ} {node fuel : ℕ} (hn : node ∈ seq)
      (hf : seq.length + 2 ≤ fuel) (h : intervalTreeRemove A fuel root node = some root') :
      Step A ⟨root, seq⟩ ⟨root', seq.erase node⟩

/-- The memory holds one tree, well formed, with the expected in-order sequence. -/
structure Holds (A : Nodes) (x : System) (t : CTree ℕ) : Prop where
  wellFormed : WellFormed A x.root t
  only : ∀ t', TreeOf x.root.rbRoot t' → t' = t
  inorder : t.inorder = x.seq

theorem holds_of_wellFormed {x : System} (h : WellFormed A x.root t) (hin : t.inorder = x.seq) :
    Holds A x t :=
  ⟨h, fun _ h' => treeOf_unique h' h.tree, hin⟩

theorem step_holds {x y : System} (hx : ∃ t, Holds A x t) (hst : Step A x y) :
    ∃ t, Holds A y t := by
  obtain ⟨t, h⟩ := hx
  cases hst with
  | insert hn hfresh hf hs =>
    obtain rfl := h.inorder
    obtain ⟨root, t', hs', hw, hin⟩ := intervalTreeInsert_spec _ _ h.wellFormed hn hfresh hf
    obtain rfl := Option.some.inj (hs.symm.trans hs')
    exact ⟨t', holds_of_wellFormed hw hin⟩
  | remove hn hf hs =>
    obtain rfl := h.inorder
    obtain ⟨root, t', hs', hw, hin⟩ := intervalTreeRemove_spec _ _ h.wellFormed hn hf
    obtain rfl := Option.some.inj (hs.symm.trans hs')
    exact ⟨t', holds_of_wellFormed hw hin⟩

theorem start_holds (A : Nodes) (s₀ : State SubtreeLast) :
    Holds A ⟨RB_ROOT_CACHED s₀, []⟩ .nil :=
  holds_of_wellFormed ⟨⟨rfl, trivial, List.nodup_nil⟩, ⟨rfl, trivial, 0, rfl⟩, List.Pairwise.nil,
    trivial, rfl, rfl⟩ rfl

/-- **The interval tree.** Along every run from the empty tree the memory holds one tree, well formed
and with the expected nodes in order, and every legal call returns. -/
theorem reachable_intervalTree {s₀ : State SubtreeLast} {x : System}
    (h : Relation.ReflTransGen (Step A) ⟨RB_ROOT_CACHED s₀, []⟩ x) :
    (∃ t, Holds A x t) ∧
    (∀ node fuel, Addr node → node ∉ x.seq → x.seq.length + 2 ≤ fuel →
      ∃ root', intervalTreeInsert A fuel x.root node = some root') ∧
    ∀ node ∈ x.seq, ∀ fuel, x.seq.length + 2 ≤ fuel →
      ∃ root', intervalTreeRemove A fuel x.root node = some root' := by
  have hx := Lib.Run.invariant (I := fun x : System => ∃ t, Holds A x t)
    ⟨.nil, start_holds A s₀⟩ (fun _ _ => step_holds) h
  obtain ⟨t, ht⟩ := hx
  obtain ⟨root, seq⟩ := x
  obtain rfl : t.inorder = seq := ht.inorder
  refine ⟨⟨t, ht⟩, fun node fuel hn hfresh hf => ?_, fun node hn fuel hf => ?_⟩
  · obtain ⟨root', -, hs, -⟩ := intervalTreeInsert_spec _ _ ht.wellFormed hn hfresh hf
    exact ⟨root', hs⟩
  · obtain ⟨root', -, hs, -⟩ := intervalTreeRemove_spec _ _ ht.wellFormed hn hf
    exact ⟨root', hs⟩

/-- Three areas of two pages each, at the offsets 3, 5 and 4. -/
def threeAreas : Nodes where
  vmPgoff := fun v => if v = 4 then 3 else if v = 8 then 5 else 4
  vmaPages := fun _ => 2
  vma := id

def zeroMemory : State SubtreeLast := ⟨fun _ => 0, fun _ _ => 0, 0, ⟨fun _ => 0, true⟩⟩

/-- Three insertions, and the removal of the first node. -/
theorem reachable_intervalTree_three : ∃ root,
    Relation.ReflTransGen (Step threeAreas) ⟨RB_ROOT_CACHED zeroMemory, []⟩ ⟨root, [12, 8]⟩ ∧
      ∃ t, Holds threeAreas ⟨root, [12, 8]⟩ t := by
  have h0 := (start_holds threeAreas zeroMemory).wellFormed
  obtain ⟨r1, t1, h1, hw1, hin1⟩ := intervalTreeInsert_spec 8 9 h0
    ⟨by decide, by decide⟩ (by simp) (by simp)
  have hs1 : t1.inorder = [8] := hin1
  obtain ⟨r2, t2, h2, hw2, hin2⟩ := intervalTreeInsert_spec 4 9 hw1
    ⟨by decide, by decide⟩ (by rw [hs1]; decide) (by rw [hs1]; decide)
  have hs2 : t2.inorder = [4, 8] := by rw [hin2, hs1]; decide
  obtain ⟨r3, t3, h3, hw3, hin3⟩ := intervalTreeInsert_spec 12 9 hw2
    ⟨by decide, by decide⟩ (by rw [hs2]; decide) (by rw [hs2]; decide)
  have hs3 : t3.inorder = [4, 12, 8] := by rw [hin3, hs2]; decide
  obtain ⟨r4, t4, h4, -, -⟩ := intervalTreeRemove_spec 4 9 hw3
    (by rw [hs3]; decide) (by rw [hs3]; decide)
  have hrun : Relation.ReflTransGen (Step threeAreas) ⟨RB_ROOT_CACHED zeroMemory, []⟩
      ⟨r4, [12, 8]⟩ :=
    (((Relation.ReflTransGen.single
      (Step.insert ⟨by decide, by decide⟩ (by decide) (by decide) h1)).tail
      (Step.insert ⟨by decide, by decide⟩ (by decide) (by decide) h2)).tail
      (Step.insert ⟨by decide, by decide⟩ (by decide) (by decide) h3)).tail
      (Step.remove (by decide) (by decide) h4)
  exact ⟨r4, hrun, (reachable_intervalTree hrun).1⟩

end HardStack.IntervalTree.Run
