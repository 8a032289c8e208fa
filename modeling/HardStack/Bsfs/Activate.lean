import HardStack.Bsfs.Walk

/-! # Activation

A call of `bsfs_activate` runs through a subtree in postorder and activates what has not been activated
before. So over any number of calls every node that is reached is activated once. -/

namespace HardStack.Bsfs.Activate

open HardStack.Bsfs.Model HardStack.Bsfs.Walk HardStack.Lib.Forest
open HardStack.Rbtree.Model (visit)

variable {s s' : State} {fuel n kn : ℕ} {c : Forest ℕ} {L M : List ℕ}

/-- What the loop makes of a node. -/
def activated (node : Node) : Node :=
  if node.activated then node
  else { node with active := node.active - BS_DEACTIVATED_BIAS, activated := true }

/-- The state with these nodes activated. -/
def withActivated (s : State) (L : List ℕ) : State :=
  { s with heap := fun p => if p ∈ L then (s.heap p).map activated else s.heap p }

/-- The node has not been activated yet. -/
def Fresh (s : State) (p : ℕ) : Prop := ∃ node, s.heap p = some node ∧ node.activated = false

instance (s : State) (p : ℕ) : Decidable (Fresh s p) :=
  match h : s.heap p with
  | none => isFalse fun ⟨node, hnode, _⟩ => by rw [h] at hnode; cases hnode
  | some node =>
    if hn : node.activated = false then isTrue ⟨node, h, hn⟩
    else isFalse fun ⟨node', hnode', hn'⟩ => by
      rw [h] at hnode'
      cases hnode'
      exact hn hn'

theorem withActivated_nil (s : State) : withActivated s [] = s := by
  unfold withActivated
  simp

theorem activated_idem (node : Node) : activated (activated node) = activated node := by
  unfold activated
  split_ifs with h h'
  · rfl
  · rfl
  · exact absurd rfl h'

theorem withActivated_append (s : State) (L M : List ℕ) :
    withActivated (withActivated s L) M = withActivated s (L ++ M) := by
  unfold withActivated
  congr 1
  funext p
  simp only [List.mem_append]
  by_cases hL : p ∈ L
  · by_cases hM : p ∈ M
    · rw [if_pos hM, if_pos hL, if_pos (Or.inl hL), Option.map_map]
      congr 1
      funext node
      exact activated_idem node
    · rw [if_neg hM, if_pos hL, if_pos (Or.inl hL)]
  · by_cases hM : p ∈ M
    · rw [if_pos hM, if_neg hL, if_pos (Or.inr hM)]
    · rw [if_neg hM, if_neg hL, if_neg (by tauto)]

theorem withActivated_shape (s : State) (L : List ℕ) : SameShape s (withActivated s L) := by
  refine ⟨rfl, fun p node hp => ?_⟩
  unfold withActivated
  dsimp only
  by_cases hL : p ∈ L
  · rw [if_pos hL, hp]
    refine ⟨_, rfl, ?_, ?_⟩
    · unfold activated
      split_ifs <;> rfl
    · unfold activated
      split_ifs <;> rfl
  · rw [if_neg hL]
    exact ⟨node, hp, rfl, rfl⟩

theorem fresh_withActivated (s : State) (L : List ℕ) (p : ℕ) :
    Fresh (withActivated s L) p ↔ Fresh s p ∧ p ∉ L := by
  unfold Fresh withActivated
  dsimp only
  by_cases hL : p ∈ L
  · rw [if_pos hL]
    refine iff_of_false ?_ fun h => h.2 hL
    rintro ⟨node, hnode, hn⟩
    obtain ⟨node₀, -, rfl⟩ := Option.map_eq_some_iff.mp hnode
    unfold activated at hn
    split_ifs at hn with h
    rw [h] at hn
    cases hn
  · rw [if_neg hL]
    exact ⟨fun h => ⟨h, hL⟩, fun h => h.1⟩

/-! ### A call -/

theorem activateNode_spec {p : ℕ} {node : Node} (h : s.heap p = some node) :
    activateNode s p = some (withActivated s [p], [p].filter (Fresh s ·)) := by
  have hstate : withActivated s [p] = s.set p (activated node) := by
    unfold withActivated State.set
    congr 1
    funext q
    by_cases hq : q = p
    · subst hq
      rw [if_pos (List.mem_singleton_self q), h, Function.update_self]
      rfl
    · rw [if_neg (by rw [List.mem_singleton]; exact hq), Function.update_of_ne hq]
  unfold activateNode
  rw [h]
  show (if node.activated then _ else _) = _
  by_cases hn : node.activated
  · have hfresh : ¬ Fresh s p := by
      rintro ⟨node', hnode', hn'⟩
      rw [h] at hnode'
      cases hnode'
      rw [hn] at hn'
      cases hn'
    rw [if_pos hn, List.filter_cons_of_neg (by simpa using hfresh), hstate]
    unfold activated State.set
    rw [if_pos hn, ← h, Function.update_eq_self]
    rfl
  · have hfresh : Fresh s p := ⟨node, h, by simpa using hn⟩
    rw [if_neg hn, List.filter_cons_of_pos (by simpa using hfresh), hstate]
    unfold activated
    rw [if_neg hn]
    rfl

/-- The loop runs through the rest `M` of the sequence. -/
theorem activateLoop_spec (h : Subtree s kn c) (hfuel : c.postorder.length < fuel) :
    ∀ (M : List ℕ) (n : ℕ) (L : List ℕ) (pos : ℕ), M.length < n → L ++ M = order kn c →
      pos = L.getLastD 0 →
      activateLoop fuel kn n (withActivated s L) pos =
        some (withActivated s (L ++ M), M.filter (Fresh s ·))
  | M, 0, _, _, hn, _, _ => absurd hn (Nat.not_lt_zero _)
  | M, n + 1, L, pos, hn, horder, hpos => by
    have hshape := withActivated_shape s L
    obtain ⟨hfirst, hnext⟩ := walk_spec (hshape.subtree h) hfuel
    have hstep : nextDescendantPost fuel (withActivated s L) pos kn = some (M.headD 0) := by
      rcases List.eq_nil_or_concat' L with rfl | ⟨A, x, rfl⟩
      · rw [hpos, ← horder] at *
        exact hfirst
      · rw [hpos, List.getLastD_concat]
        exact hnext A x M (by rw [← horder]; simp)
    unfold activateLoop
    rw [hstep]
    show (if M.headD 0 = 0 then _ else _) = _
    cases M with
    | nil =>
      rw [List.headD_nil, if_pos rfl, List.append_nil]
      rfl
    | cons x M =>
      have hx : x ∈ order kn c := by
        rw [← horder]
        simp
      have hne : x ≠ 0 := fun h0 => h.zero_notMem (h0 ▸ hx)
      obtain ⟨node, hnode⟩ := (hshape.subtree h).live hx
      have hnd : (L ++ x :: M).Nodup := by
        rw [horder, (order_perm kn c).nodup_iff]
        exact h.nodup
      have hxL : x ∉ L := fun hmem => List.disjoint_of_nodup_append hnd hmem List.mem_cons_self
      have hrest := activateLoop_spec h hfuel M n (L ++ [x]) x (Nat.lt_of_succ_lt_succ hn)
        (by rw [List.append_assoc]; exact horder) (List.getLastD_concat ..).symm
      have hfresh : [x].filter (Fresh (withActivated s L) ·) = [x].filter (Fresh s ·) := by
        refine List.filter_congr fun y hy => ?_
        rw [List.mem_singleton.mp hy]
        simp only [fresh_withActivated, decide_eq_decide]
        exact and_iff_left hxL
      rw [List.headD_cons, if_neg hne, activateNode_spec hnode, withActivated_append, hfresh]
      show (activateLoop fuel kn n (withActivated s (L ++ [x])) x).bind _ = _
      rw [hrest, List.append_assoc]
      show some (_, [x].filter _ ++ M.filter _) = some (_, (x :: M).filter _)
      rw [← List.filter_append]
      rfl

/-- **`bsfs_activate`** activates the nodes of its subtree. -/
theorem activate_spec (h : Subtree s kn c) (hfuel : (order kn c).length < fuel) :
    activate fuel s kn = some (withActivated s (order kn c), (order kn c).filter (Fresh s ·)) := by
  have hlen : c.postorder.length < fuel := by
    rw [order, List.length_append] at hfuel
    omega
  have hrun := activateLoop_spec h hlen (order kn c) fuel [] 0 hfuel rfl rfl
  rw [withActivated_nil] at hrun
  exact hrun

/-! ### Any number of calls -/

/-- The calls one after another, with the nodes that they activate. -/
def activateCalls (fuel : ℕ) : List ℕ → State → Option (State × List ℕ)
  | [], s => some (s, [])
  | kn :: kns, s => do
    let (s, now) ← activate fuel s kn
    let (s, later) ← activateCalls fuel kns s
    some (s, now ++ later)

/-- A node of one of the subtrees. -/
def Reached (trees : List (ℕ × Forest ℕ)) (x : ℕ) : Prop := ∃ t ∈ trees, x ∈ t.1 :: t.2.nodes

theorem activateCalls_spec : ∀ (trees : List (ℕ × Forest ℕ)) {s : State},
    (∀ t ∈ trees, Subtree s t.1 t.2 ∧ (order t.1 t.2).length < fuel) →
    ∃ M log, activateCalls fuel (trees.map Prod.fst) s = some (withActivated s M, log) ∧ log.Nodup ∧
      (∀ x, x ∈ log ↔ Reached trees x ∧ Fresh s x) ∧ ∀ x, x ∈ M ↔ Reached trees x
  | [], s, _ => by
    have hnone : ∀ x, ¬ Reached [] x := fun x ⟨_, h, _⟩ => List.not_mem_nil h
    exact ⟨[], [], by rw [withActivated_nil]; rfl, List.nodup_nil,
      fun x => iff_of_false List.not_mem_nil fun h => hnone x h.1,
      fun x => iff_of_false List.not_mem_nil (hnone x)⟩
  | (kn, c) :: trees, s, h => by
    obtain ⟨htree, hlen⟩ := h _ List.mem_cons_self
    have hshape := withActivated_shape s (order kn c)
    obtain ⟨M, log, hrun, hnd, hlog, hM⟩ := activateCalls_spec trees (s := withActivated s (order kn c))
      fun t ht => ⟨hshape.subtree (h t (List.mem_cons_of_mem _ ht)).1, (h t (List.mem_cons_of_mem _ ht)).2⟩
    have hmem : ∀ x, x ∈ order kn c ↔ x ∈ kn :: c.nodes := fun x => (order_perm kn c).mem_iff
    have hreached : ∀ x, Reached ((kn, c) :: trees) x ↔ x ∈ order kn c ∨ Reached trees x := by
      intro x
      unfold Reached
      rw [List.exists_mem_cons_iff, hmem]
    have hndorder : (order kn c).Nodup := (order_perm kn c).nodup_iff.mpr htree.nodup
    refine ⟨order kn c ++ M, (order kn c).filter (Fresh s ·) ++ log, ?_, ?_, fun x => ?_, fun x => ?_⟩
    · show (activate fuel s kn).bind _ = _
      rw [activate_spec htree hlen]
      show (activateCalls fuel (trees.map Prod.fst) (withActivated s (order kn c))).bind _ = _
      rw [hrun, withActivated_append]
      rfl
    · refine List.Nodup.append (hndorder.filter _) hnd fun x hx hx' => ?_
      exact ((fresh_withActivated s _ x).mp ((hlog x).mp hx').2).2 (List.mem_filter.mp hx).1
    · rw [List.mem_append, List.mem_filter, hlog, fresh_withActivated, hreached, decide_eq_true_eq]
      tauto
    · rw [List.mem_append, hM, hreached]

/-- **Activation.** The walk over each of the subtrees ends and is at every node once, a child before its
parent and the root last. Over all calls, each node that is reached and has not been activated before is
activated once, and then its active count is 0; no other node is changed. -/
theorem activate_once {trees : List (ℕ × Forest ℕ)} (h : ∀ t ∈ trees, Subtree s t.1 t.2)
    (hbias : ∀ x node, Reached trees x → s.heap x = some node → node.activated = false →
      node.active = BS_DEACTIVATED_BIAS) :
    ∃ enough, ∀ fuel > enough,
      (∀ t ∈ trees, ∃ L, (nextDescendantPost fuel s 0 t.1).bind
          (visit (fun pos => nextDescendantPost fuel s pos t.1) fuel) = some L ∧
        L.Perm (t.1 :: t.2.nodes) ∧ L.Nodup ∧ L.getLast? = some t.1 ∧
        ∀ x y, Forest.Child t.1 t.2 x y → ∃ A B C, L = A ++ x :: B ++ y :: C) ∧
      ∃ s' log, activateCalls fuel (trees.map Prod.fst) s = some (s', log) ∧ log.Nodup ∧
        (∀ x, x ∈ log ↔ Reached trees x ∧ Fresh s x) ∧
        ∀ x, s'.heap x = if x ∈ log then
          (s.heap x).map fun node => { node with active := 0, activated := true } else s.heap x := by
  refine ⟨(trees.map fun t => (order t.1 t.2).length).sum, fun fuel hfuel => ?_⟩
  have hlen : ∀ t ∈ trees, (order t.1 t.2).length < fuel := fun t ht =>
    lt_of_le_of_lt (List.single_le_sum (fun _ _ => Nat.zero_le _) _
      (List.mem_map_of_mem (f := fun t => (order t.1 t.2).length) ht)) hfuel
  refine ⟨fun t ht => ⟨order t.1 t.2, visit_spec (h t ht) (hlen t ht), order_perm _ _,
    (order_perm _ _).nodup_iff.mpr (h t ht).nodup, List.getLast?_concat .., fun x y => order_child⟩, ?_⟩
  obtain ⟨M, log, hrun, hnd, hlog, hM⟩ := activateCalls_spec trees fun t ht => ⟨h t ht, hlen t ht⟩
  refine ⟨_, log, hrun, hnd, hlog, fun x => ?_⟩
  show (if x ∈ M then _ else _) = _
  by_cases hx : x ∈ M
  · have hreached := (hM x).mp hx
    rw [if_pos hx]
    by_cases hfresh : Fresh s x
    · obtain ⟨node, hnode, hn⟩ := hfresh
      rw [if_pos ((hlog x).mpr ⟨hreached, node, hnode, hn⟩), hnode]
      unfold activated
      simp only [Option.map_some, hn, Bool.false_eq_true, if_false]
      rw [hbias x node hreached hnode hn, sub_self]
    · rw [if_neg fun hmem => hfresh ((hlog x).mp hmem).2]
      cases hnode : s.heap x with
      | none => rfl
      | some node =>
        have hn : node.activated = true := by
          by_contra hn
          exact hfresh ⟨node, hnode, by simpa using hn⟩
        unfold activated
        simp only [Option.map_some, hn, if_true]
  · rw [if_neg hx, if_neg fun hmem => hx ((hM x).mpr ((hlog x).mp hmem).1)]

/-- A new node. -/
def newNode (par : ℕ) (type : NodeType) : Node where
  count := 1
  active := BS_DEACTIVATED_BIAS
  parent := par
  ns := 0
  hash := 2
  type := type
  activated := false
  subdirs := 0
  target := 0
  ino := 1
  iattr := none

/-- A directory with one file. -/
def oneFile : State where
  heap := fun p => if p = 4 then some (newNode 0 .dir) else if p = 8 then some (newNode 4 .file) else none
  siblings := fun _ => ⟨fun _ => 1, fun _ _ => 0, 8, ()⟩
  inoIdr := fun _ => 0
  rootFreed := false

theorem oneFile_subtrees :
    Subtree oneFile 8 .nil ∧ Subtree oneFile 4 (.cons 8 .nil .nil) := by
  have hfile : NodeRep oneFile 4 8 .nil :=
    ⟨by decide, newNode 4 .file, rfl, rfl, fun h => absurd h (by decide), fun _ => rfl⟩
  have hsorted : Sorted oneFile 4 [8] :=
    ⟨.node .black .nil 8 .nil, ⟨rfl, ⟨⟨by decide, by decide⟩, rfl, rfl, rfl, trivial, trivial⟩, by decide⟩, rfl⟩
  have hdir : NodeRep oneFile 0 4 (.cons 8 .nil .nil) :=
    ⟨by decide, newNode 0 .dir, rfl, rfl, fun _ => hsorted, fun h => absurd rfl h⟩
  exact ⟨⟨⟨4, hfile⟩, trivial, by decide⟩, ⟨⟨0, hdir⟩, ⟨hfile, trivial, trivial⟩, by decide⟩⟩

/-- The file first, and then the directory. -/
theorem activate_once_oneFile : ∃ enough, ∀ fuel > enough,
    (∀ t ∈ [(8, Forest.nil), (4, .cons 8 .nil .nil)], ∃ L, (nextDescendantPost fuel oneFile 0 t.1).bind
        (visit (fun pos => nextDescendantPost fuel oneFile pos t.1) fuel) = some L ∧
      L.Perm (t.1 :: t.2.nodes) ∧ L.Nodup ∧ L.getLast? = some t.1 ∧
      ∀ x y, Forest.Child t.1 t.2 x y → ∃ A B C, L = A ++ x :: B ++ y :: C) ∧
    ∃ s' log, activateCalls fuel [8, 4] oneFile = some (s', log) ∧ log.Nodup ∧
      (∀ x, x ∈ log ↔ Reached [(8, Forest.nil), (4, .cons 8 .nil .nil)] x ∧ Fresh oneFile x) ∧
      ∀ x, s'.heap x = if x ∈ log then
        (oneFile.heap x).map fun node => { node with active := 0, activated := true }
        else oneFile.heap x := by
  refine @activate_once oneFile [(8, .nil), (4, .cons 8 .nil .nil)] (fun t ht => ?_)
    fun x node _ hnode _ => ?_
  · rcases List.mem_cons.mp ht with rfl | ht
    · exact oneFile_subtrees.1
    · rw [List.mem_singleton.mp ht]
      exact oneFile_subtrees.2
  · unfold oneFile at hnode
    dsimp only at hnode
    split_ifs at hnode
    · cases hnode
      rfl
    · cases hnode
      rfl

end HardStack.Bsfs.Activate
