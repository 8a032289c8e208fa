import HardStack.Rbtree.Insert
import HardStack.Rbtree.Erase

/-! # Runs of insertions and erasures

The run keeps, beside the memory, the sequence of nodes that the calls so far should have left. A
reachable memory holds exactly one tree, it is red-black, its in-order sequence is that sequence, and
every legal call returns. -/

namespace HardStack.Rbtree.Run

open HardStack.Lib.RbTree HardStack.Rbtree.Model HardStack.Rbtree.Layout
open HardStack.Rbtree.Callbacks HardStack.Rbtree.Insert HardStack.Rbtree.Erase

variable {α : Type} {s : State α} {K : Ctx ℕ} (cb : AugmentCallbacks α) {t : CTree ℕ} {node : ℕ}

/-! ### The memory determines the tree -/

theorem rep_unique : ∀ {t t' : CTree ℕ} {par : ℕ}, 4 ∣ par → Rep s par t → Rep s par t' →
    ptr t = ptr t' → t = t'
  | .nil, t', par, _, _, h', hp => ((ptr_eq_zero_iff h').mp hp.symm).symm
  | .node c l p r, .nil, par, _, h, _, hp => absurd hp h.1.1
  | .node c l p r, .node c' l' p' r', par, h4, h, h', hp => by
    obtain rfl : p = p' := hp
    obtain ⟨ha, hpc, hl, hr, hL, hR⟩ := h
    obtain ⟨-, hpc', hl', hr', hL', hR'⟩ := h'
    have hc : c = c' := by
      have h1 := pcIsBlack_or h4 c
      rw [← hpc, hpc', pcIsBlack_or h4 c'] at h1
      cases c <;> cases c' <;> simp_all
    rw [hc, rep_unique ha.2 hL hL' (hl.symm.trans hl'), rep_unique ha.2 hR hR' (hr.symm.trans hr')]

/-- **One tree.** -/
theorem treeOf_unique {t' : CTree ℕ} (h : TreeOf s t) (h' : TreeOf s t') : t = t' :=
  rep_unique (dvd_zero 4) h.tree h'.tree (h.root.symm.trans h'.root)

/-! ### Linking a new node -/

/-- The sequence with `node` placed right before or right after `p`. -/
def placeBy (node : ℕ) (d : Dir) (p : ℕ) : List ℕ → List ℕ
  | [] => []
  | x :: L => if x = p then ord d [node] p [] ++ L else x :: placeBy node d p L

/-- The in-order sequence after linking `node` at an empty position. -/
def place (node : ℕ) (L : List ℕ) : Link → List ℕ
  | .root => [node]
  | .child d p => placeBy node d p L

/-- The position is `NULL`, and it is the root's or that of a node of the tree. -/
def FreeLink (s : State α) (L : List ℕ) : Link → Prop
  | .root => s.root = 0
  | .child d p => p ∈ L ∧ s.child d p = 0

theorem placeBy_append (node : ℕ) (d : Dir) {p : ℕ} : ∀ {pre : List ℕ} (post : List ℕ), p ∉ pre →
    placeBy node d p (pre ++ p :: post) = pre ++ (ord d [node] p [] ++ post)
  | [], post, _ => by simp [placeBy]
  | x :: pre, post, h => by
    rw [List.mem_cons, not_or] at h
    rw [List.cons_append, placeBy, if_neg (Ne.symm h.1), placeBy_append node d post h.2]
    rfl

/-- Placing the node next to the parent of the empty hole fills the hole. -/
theorem placeBy_around {f : Frame ℕ} (hnd : (Ctx.around (f :: K) []).Nodup) :
    placeBy node f.dir f.ptr (Ctx.around (f :: K) []) = Ctx.around (f :: K) [node] := by
  have h1 : ∀ L, Ctx.around (f :: K) L =
      K.before ++ (ord f.dir L f.ptr f.sib.inorder ++ K.after) := fun L => Ctx.around_eq K _
  rw [h1] at hnd ⊢
  rw [h1]
  have hp : f.ptr ∉ K.before := fun hx =>
    (List.nodup_append.mp hnd).2.2 _ hx f.ptr (by cases f.dir <;> simp [ord]) rfl
  cases hd : f.dir with
  | left =>
    have := placeBy_append node .left (f.sib.inorder ++ K.after) hp
    simpa [ord] using this
  | right =>
    have hs : f.ptr ∉ K.before ++ f.sib.inorder := by
      rw [hd] at hnd
      intro hx
      rcases List.mem_append.mp hx with hx | hx
      · exact hp hx
      · have h2 := (List.nodup_append.mp (List.nodup_append.mp hnd).2.1).1
        exact (List.nodup_append.mp h2).2.2 _ hx f.ptr (by simp) rfl
    have := placeBy_append node .right K.after hs
    simpa [ord] using this

/-- Linking below a context whose hole is empty. -/
theorem linkChild_at {f : Frame ℕ} (h : At s (f :: K) .nil) (hn : Addr node)
    (hfresh : node ∉ Ctx.around (f :: K) []) :
    At (rbLinkNode s node (.child f.dir f.ptr)) (f :: K) (.mk .left .red .nil node .nil) := by
  have hnd := h.nodup
  rw [Ctx.nodup_around] at hnd
  have hfr : node ∉ Ctx.ptrs (f :: K) := fun hx => hfresh (Ctx.mem_around.mpr (Or.inr hx))
  obtain ⟨hp, hpc, hc1, hc2, hsib, hk⟩ := h.ctx
  have hin : Ctx.ptrs (f :: K) = f.ptr :: (f.sib.inorder ++ Ctx.ptrs K) := rfl
  rw [hin, List.mem_cons, List.mem_append, not_or, not_or] at hfr
  rw [hin, List.nodup_cons, List.mem_append, not_or] at hnd
  obtain ⟨hf1, hf2, hf3⟩ := hfr
  have hsame : ∀ x, x ≠ node → x ≠ f.ptr → Same s (rbLinkNode s node (.child f.dir f.ptr)) x := by
    intro x h1 h2
    simp [rbLinkNode, Same, h1, h2]
  refine ⟨⟨hp, ?_, ?_, ?_, rep_congr (s := s) ?_ hsib, ctxRep_congr (s := s) rfl ?_ hk⟩,
    rep_mk.mpr ⟨hn, ?_, ?_, ?_, trivial, trivial⟩, ?_⟩
  · simp [rbLinkNode, Ne.symm hf1, hpc]
  · simp [rbLinkNode]
  · simp [rbLinkNode, Ne.symm hf1, hc2]
  · intro x hx
    exact hsame x (fun h' => hf2 (h' ▸ hx)) (fun h' => hnd.2.1.1.1 (h' ▸ hx))
  · intro x hx
    exact hsame x (fun h' => hf3 (h' ▸ hx)) (fun h' => hnd.2.1.1.2 (h' ▸ hx))
  · simp [rbLinkNode, bit, RB_RED]
  · simp [rbLinkNode, hf1]
  · simp [rbLinkNode, hf1, Dir.flip]
  · rw [Ctx.nodup_around]
    refine ⟨by simp [ord], h.nodup |> Ctx.nodup_around.mp |>.2.1, ?_⟩
    intro x hx hx'
    obtain rfl : x = node := by simpa [ord] using hx
    exact hfresh (Ctx.mem_around.mpr (Or.inr hx'))

theorem linkRoot_at (s : State α) (hn : Addr node) :
    At (rbLinkNode s node .root) [] (.mk .left .red .nil node .nil) := by
  refine ⟨by simp [rbLinkNode, CtxRep], rep_mk.mpr ⟨hn, ?_, ?_, ?_, trivial, trivial⟩, ?_⟩
  · simp [rbLinkNode, bit, RB_RED]
  · simp [rbLinkNode]
  · simp [rbLinkNode, Dir.flip]
  · simp [Ctx.around, ord]

/-- The position of the hole of a context. -/
def linkOf : Ctx ℕ → Link
  | [] => .root
  | f :: _ => .child f.dir f.ptr

theorem link_at (h : At s K .nil) (hn : Addr node) (hfresh : node ∉ K.around []) :
    At (rbLinkNode s node (linkOf K)) K (.mk .left .red .nil node .nil) := by
  cases K with
  | nil => exact linkRoot_at s hn
  | cons f K => exact linkChild_at h hn hfresh

/-- An empty position of the memory is the hole of a context of the tree. -/
theorem exists_hole {link : Link} (h : TreeOf s t) (hlink : FreeLink s t.inorder link) :
    ∃ K : Ctx ℕ, t = K.fill .nil ∧ linkOf K = link := by
  cases link with
  | root =>
    obtain rfl : t = .nil := (ptr_eq_zero_iff h.tree).mp (h.root.symm.trans hlink)
    exact ⟨[], rfl, rfl⟩
  | child d p =>
    obtain ⟨hp, hc⟩ := hlink
    obtain ⟨K, c, l, r, rfl⟩ := Ctx.exists_fill hp
    obtain ⟨-, -, hl, hr, hL, hR⟩ := (at_iff (K := K).mpr h).tree
    cases d with
    | left =>
      obtain rfl : l = .nil := (ptr_eq_zero_iff hL).mp (hl.symm.trans hc)
      exact ⟨⟨.left, c, p, r⟩ :: K, rfl, rfl⟩
    | right =>
      obtain rfl : r = .nil := (ptr_eq_zero_iff hR).mp (hr.symm.trans hc)
      exact ⟨⟨.right, c, p, l⟩ :: K, rfl, rfl⟩

/-- **Linking at a hole and rebalancing**, with what the callbacks make of the data. -/
theorem rbInsert_hole {I : α → Ctx ℕ → CTree ℕ → Prop} {Q : α → CTree ℕ → Prop}
    (hcb : InsertRule cb I Q) (fuel : ℕ) (h : At s K .nil) (hrb : (K.fill .nil).RedBlack)
    (hn : Addr node) (hfresh : node ∉ K.around [])
    (hI : I s.aug K (.mk .left .red .nil node .nil)) (hf : K.length + 1 < fuel) :
    ∃ s' t', rbInsert cb fuel (rbLinkNode s node (linkOf K)) node = some s' ∧ TreeOf s' t' ∧
      t'.RedBlack ∧ t'.inorder = K.around [node] ∧ Q s'.aug t' := by
  have hat := link_at h hn hfresh
  obtain ⟨-, ⟨k, hk, hK⟩, hacc⟩ := Ctx.redBlack_unfill hrb
  obtain rfl : k = 0 := hk
  have hpc : (rbLinkNode s node (linkOf K)).rbRedParent node = top K := by
    cases K <;> simp [rbLinkNode, linkOf, State.rbRedParent]
  have haug : (rbLinkNode s node (linkOf K)).aug = s.aug := by
    cases K <;> rfl
  obtain ⟨s', t', hs, ht, hrb', hin, hQ⟩ := rbInsertLoop_spec cb hcb fuel K _ _ 0 hf hat
    CTree.color_mk (by simp) (by simp [Color.weight]) hK hacc (by rw [haug]; exact hI)
  rw [ptr_mk] at hs
  unfold rbInsert
  rw [hpc]
  exact ⟨s', t', hs, ht, hrb', hin, hQ⟩

/-- **Linking and `rb_insert_color`** place the node and leave a red-black tree. -/
theorem rbInsert_spec (fuel : ℕ) {link : Link} (h : TreeOf s t) (hrb : t.RedBlack) (hn : Addr node)
    (hfresh : node ∉ t.inorder) (hlink : FreeLink s t.inorder link)
    (hf : t.inorder.length + 2 ≤ fuel) :
    ∃ s' t', rbInsert cb fuel (rbLinkNode s node link) node = some s' ∧ TreeOf s' t' ∧
      t'.RedBlack ∧ t'.inorder = place node t.inorder link := by
  obtain ⟨K, rfl, rfl⟩ := exists_hole h hlink
  have hin : (K.fill .nil).inorder = K.around [] := Ctx.inorder_fill K .nil
  rw [hin] at hfresh hf ⊢
  have hlen := Ctx.length_le_around K []
  obtain ⟨s', t', hs, ht, hrb', hin', -⟩ := rbInsert_hole cb
    (eraseRule_true cb).toUpkeep.insertRule fuel (at_iff.mpr h) hrb hn hfresh trivial (by omega)
  refine ⟨s', t', hs, ht, hrb', ?_⟩
  rw [hin']
  cases K with
  | nil => rfl
  | cons f K => exact (placeBy_around (hin ▸ h.nodup)).symm

/-! ### Runs -/

/-- The memory, and the nodes in the order that the calls so far ask for. -/
structure System (α : Type) where
  st : State α
  seq : List ℕ

/-- One call that returns: linking a new node at an empty position and `rb_insert_color`, or
`rb_erase` of a node of the tree. -/
inductive Step : System α → System α → Prop
  | insert {s s' : State α} {seq : List ℕ} {node fuel : ℕ} {link : Link} (hn : Addr node)
      (hfresh : node ∉ seq) (hlink : FreeLink s seq link)
      (h : rbInsertColor fuel (rbLinkNode s node link) node = some s') :
      Step ⟨s, seq⟩ ⟨s', place node seq link⟩
  | erase {s s' : State α} {seq : List ℕ} {node fuel : ℕ} (hn : node ∈ seq)
      (h : rbErase fuel s node = some s') : Step ⟨s, seq⟩ ⟨s', seq.erase node⟩

/-- The memory holds one tree; it is red-black and its in-order sequence is the expected one. -/
structure Holds (x : System α) (t : CTree ℕ) : Prop where
  tree : TreeOf x.st t
  only : ∀ t', TreeOf x.st t' → t' = t
  redBlack : t.RedBlack
  inorder : t.inorder = x.seq

theorem Holds.of_treeOf {x : System α} (h : TreeOf x.st t) (hrb : t.RedBlack)
    (hin : t.inorder = x.seq) : Holds x t :=
  ⟨h, fun _ h' => treeOf_unique h' h, hrb, hin⟩

/-! ### Fuel: more of it does not change what a loop returns -/

theorem rbInsertLoop_mono : ∀ {n m : ℕ} {s s' : State α} {node parent : ℕ}, n ≤ m →
    rbInsertLoop cb n s node parent = some s' → rbInsertLoop cb m s node parent = some s'
  | 0, _, _, _, _, _, _, h => by cases h
  | n + 1, 0, _, _, _, _, hle, _ => absurd hle (by omega)
  | n + 1, m + 1, s, s', node, parent, hle, h => by
    have hle' : n ≤ m := by omega
    unfold rbInsertLoop at h ⊢
    simp only at h ⊢
    split_ifs at h ⊢ <;> first | exact h | exact rbInsertLoop_mono hle' h

theorem rbEraseColorLoop_mono : ∀ {n m : ℕ} {s s' : State α} {node parent : ℕ}, n ≤ m →
    rbEraseColorLoop cb n s node parent = some s' → rbEraseColorLoop cb m s node parent = some s'
  | 0, _, _, _, _, _, _, h => by cases h
  | n + 1, 0, _, _, _, _, hle, _ => absurd hle (by omega)
  | n + 1, m + 1, s, s', node, parent, hle, h => by
    have hle' : n ≤ m := by omega
    unfold rbEraseColorLoop at h ⊢
    simp only at h ⊢
    split at h
    · exact h
    · split_ifs at h ⊢ <;> first | exact h | exact rbEraseColorLoop_mono hle' h

theorem findSuccessor_mono : ∀ {n m : ℕ} {p q : ℕ} {r : ℕ × ℕ}, n ≤ m →
    findSuccessor s n p q = some r → findSuccessor s m p q = some r
  | 0, _, _, _, _, _, h => by cases h
  | n + 1, 0, _, _, _, hle, _ => absurd hle (by omega)
  | n + 1, m + 1, p, q, r, hle, h => by
    unfold findSuccessor at h ⊢
    simp only at h ⊢
    split_ifs at h ⊢
    · exact findSuccessor_mono (by omega) h
    · exact h

theorem rbEraseAugmented_mono {n m : ℕ} {r : State α × ℕ} (hle : n ≤ m)
    (h : rbEraseAugmented cb n s node = some r) : rbEraseAugmented cb m s node = some r := by
  unfold rbEraseAugmented at h ⊢
  simp only at h ⊢
  split_ifs at h ⊢ <;> try exact h
  simp only [Option.bind_eq_bind, Option.bind_eq_some_iff] at h ⊢
  obtain ⟨q, hq, h⟩ := h
  exact ⟨q, findSuccessor_mono hle hq, h⟩

theorem rbEraseWith_mono {n m : ℕ} {s' : State α} (hle : n ≤ m)
    (h : rbEraseWith cb n s node = some s') : rbEraseWith cb m s node = some s' := by
  unfold rbEraseWith at h ⊢
  simp only [Option.bind_eq_bind, Option.bind_eq_some_iff] at h ⊢
  obtain ⟨r, hr, h⟩ := h
  refine ⟨r, rbEraseAugmented_mono cb hle hr, ?_⟩
  split_ifs at h ⊢
  · exact rbEraseColorLoop_mono cb hle h
  · exact h

/-! ### The invariant -/

/-- What an insertion that returned has done. -/
theorem insert_result {s' : State α} {fuel : ℕ} {link : Link} (h : TreeOf s t) (hrb : t.RedBlack)
    (hn : Addr node) (hfresh : node ∉ t.inorder) (hlink : FreeLink s t.inorder link)
    (hs : rbInsertColor fuel (rbLinkNode s node link) node = some s') :
    ∃ t', TreeOf s' t' ∧ t'.RedBlack ∧ t'.inorder = place node t.inorder link := by
  obtain ⟨s1, t', hs1, ht, hrb, hin⟩ := rbInsert_spec dummyCallbacks
    (max fuel (t.inorder.length + 2)) h hrb hn hfresh hlink (by omega)
  have heq := rbInsertLoop_mono dummyCallbacks (m := max fuel (t.inorder.length + 2)) (by omega) hs
  obtain rfl : s' = s1 := Option.some.inj (heq.symm.trans hs1)
  exact ⟨t', ht, hrb, hin⟩

/-- What an erasure that returned has done. -/
theorem erase_result {s' : State α} {fuel : ℕ} (h : TreeOf s t) (hrb : t.RedBlack)
    (hn : node ∈ t.inorder) (hs : rbErase fuel s node = some s') :
    ∃ t', TreeOf s' t' ∧ t'.RedBlack ∧ t'.inorder = t.inorder.erase node := by
  obtain ⟨s1, t', hs1, ht, hrb, hin, -⟩ := rbEraseWith_spec dummyCallbacks (eraseRule_true _)
    (max fuel t.inorder.length) h trivial hrb hn (by omega)
  have heq := rbEraseWith_mono dummyCallbacks (m := max fuel t.inorder.length) (by omega) hs
  obtain rfl : s' = s1 := Option.some.inj (heq.symm.trans hs1)
  exact ⟨t', ht, hrb, hin⟩

theorem step_holds {x y : System α} (hx : ∃ t, Holds x t) (hst : Step x y) : ∃ t, Holds y t := by
  obtain ⟨t, h⟩ := hx
  cases hst with
  | insert hn hfresh hlink hs =>
    obtain rfl := h.inorder
    obtain ⟨t', ht, hrb, hin⟩ := insert_result h.tree h.redBlack hn hfresh hlink hs
    exact ⟨t', Holds.of_treeOf ht hrb hin⟩
  | erase hn hs =>
    obtain rfl := h.inorder
    obtain ⟨t', ht, hrb, hin⟩ := erase_result h.tree h.redBlack hn hs
    exact ⟨t', Holds.of_treeOf ht hrb hin⟩

/-- **The red-black tree.** Along every run of insertions and erasures from `RB_ROOT` the memory
holds one tree, red-black, with consistent parent links and the expected in-order sequence; and the
next legal insertion or erasure returns. -/
theorem reachable_holds {s₀ : State α} {x : System α}
    (h : Relation.ReflTransGen Step ⟨RB_ROOT s₀, []⟩ x) :
    (∃ t, Holds x t) ∧
    (∀ node link, Addr node → node ∉ x.seq → FreeLink x.st x.seq link →
      ∃ fuel s', rbInsertColor fuel (rbLinkNode x.st node link) node = some s' ∧
        Step x ⟨s', place node x.seq link⟩) ∧
    ∀ node ∈ x.seq, ∃ fuel s', rbErase fuel x.st node = some s' ∧
      Step x ⟨s', x.seq.erase node⟩ := by
  have hinit : ∃ t, Holds (⟨RB_ROOT s₀, []⟩ : System α) t :=
    ⟨.nil, Holds.of_treeOf ⟨rfl, trivial, List.nodup_nil⟩ ⟨rfl, trivial, 0, rfl⟩ rfl⟩
  have hx := Lib.Run.invariant (I := fun x : System α => ∃ t, Holds x t) hinit
    (fun _ _ => step_holds) h
  obtain ⟨t, ht⟩ := hx
  obtain ⟨s, seq⟩ := x
  obtain rfl : t.inorder = seq := ht.inorder
  refine ⟨⟨t, ht⟩, fun node link hn hfresh hlink => ?_, fun node hn => ?_⟩
  · obtain ⟨s', t', hs, -⟩ := rbInsert_spec dummyCallbacks _ ht.tree ht.redBlack hn hfresh
      hlink le_rfl
    exact ⟨_, s', hs, Step.insert hn hfresh hlink hs⟩
  · obtain ⟨s', t', hs, -⟩ := rbEraseWith_spec dummyCallbacks (eraseRule_true _) _ ht.tree trivial
      ht.redBlack hn le_rfl
    exact ⟨_, s', hs, Step.erase hn hs⟩

/-- A memory of zeros. -/
def zeroMemory : State Unit := ⟨fun _ => 0, fun _ _ => 0, 0, ()⟩

/-- Two insertions, the second to the right of the first. -/
theorem reachable_holds_two : ∃ s : State Unit,
    Relation.ReflTransGen Step ⟨RB_ROOT zeroMemory, []⟩ ⟨s, [4, 8]⟩ ∧ ∃ t, Holds ⟨s, [4, 8]⟩ t := by
  have h4 : Addr 4 := ⟨by decide, by decide⟩
  have h8 : Addr 8 := ⟨by decide, by decide⟩
  let s₁ := (rbLinkNode (RB_ROOT zeroMemory) 4 .root).rbSetParentColor 4 0 RB_BLACK
  have h1 : rbInsertColor 1 (rbLinkNode (RB_ROOT zeroMemory) 4 .root) 4 = some s₁ := rfl
  have h2 : rbInsertColor 1 (rbLinkNode s₁ 8 (.child .right 4)) 8 =
      some (rbLinkNode s₁ 8 (.child .right 4)) := rfl
  have hroot : FreeLink (RB_ROOT zeroMemory) [] .root := rfl
  have hright : FreeLink s₁ [4] (.child .right 4) := ⟨by simp, rfl⟩
  have hrun := (Relation.ReflTransGen.single (Step.insert h4 (by simp) hroot h1)).tail
    (Step.insert h8 (by simp [place]) hright h2)
  exact ⟨_, hrun, (reachable_holds hrun).1⟩

end HardStack.Rbtree.Run
