import HardStack.Bsfs.Model
import HardStack.Lib.RefCount

/-! # Dropping references

Each node holds a reference on its parent, and a link one on its target. `bsfs_put` frees the nodes that
are left without a reference, one after another; the node that is being freed is no longer counted, and
its references are about to be dropped. With the last node the root goes. -/

namespace HardStack.Bsfs.Put

open HardStack.Bsfs.Model HardStack.Lib.RefCount

variable {s₀ s s₁ s' : State} {held : ℕ → ℕ} {F F₀ F₁ F' : Finset ℕ} {pend : Multiset ℕ}
  {r kn x y m n : ℕ} {rank : ℕ → ℕ} {node node₀ : Node}

/-! ### Nodes -/

def parentOf (s : State) (x : ℕ) : ℕ := (s.heap x).elim 0 (·.parent)
def targetOf (s : State) (x : ℕ) : ℕ := (s.heap x).elim 0 fun node => if node.type = .link then node.target else 0
def inoOf (s : State) (x : ℕ) : ℕ := (s.heap x).elim 0 (·.ino)

/-- A pointer that is not `NULL` is a reference. -/
def ref (p : ℕ) : Multiset ℕ := if p = 0 then 0 else {p}

/-- The references of a node. -/
def refsOut (s : State) (x : ℕ) : Multiset ℕ := ref (parentOf s x) + ref (targetOf s x)

theorem mem_ref {p : ℕ} : x ∈ ref p ↔ x = p ∧ p ≠ 0 := by
  unfold ref
  split_ifs with h
  · exact iff_of_false (Multiset.notMem_zero x) fun hx => hx.2 h
  · exact Multiset.mem_singleton.trans ⟨fun hx => ⟨hx, h⟩, fun hx => hx.1⟩

theorem ref_of_ne {p : ℕ} (h : p ≠ 0) (pend : Multiset ℕ) : ref p + pend = p ::ₘ pend := by
  unfold ref
  rw [if_neg h, Multiset.singleton_add]

/-- What removal leaves as it is in a node. -/
structure Alike (a b : Node) : Prop where
  parent : b.parent = a.parent
  type : b.type = a.type
  target : b.target = a.target
  ino : b.ino = a.ino
  activated : b.activated = a.activated
  iattr : b.iattr.isSome = a.iattr.isSome

theorem Alike.refl (a : Node) : Alike a a := ⟨rfl, rfl, rfl, rfl, rfl, rfl⟩

theorem Alike.trans {a b c : Node} (h : Alike a b) (h' : Alike b c) : Alike a c :=
  ⟨h'.parent.trans h.parent, h'.type.trans h.type, h'.target.trans h.target, h'.ino.trans h.ino,
    h'.activated.trans h.activated, h'.iattr.trans h.iattr⟩

/-- **The nodes of a hierarchy**: `F₀` are all of them, `r` is the one without a parent, and each has its
own inode number. -/
structure Hierarchy (s₀ : State) (F₀ : Finset ℕ) (r : ℕ) (rank : ℕ → ℕ) : Prop where
  mem : ∀ x, x ∈ F₀ ↔ (s₀.heap x).isSome
  ne_zero : ∀ x ∈ F₀, x ≠ 0
  root : ∀ x ∈ F₀, parentOf s₀ x = 0 → x = r
  rootType : ∀ node, s₀.heap r = some node → node.type = .dir
  rank : ∀ x ∈ F₀, parentOf s₀ x ≠ 0 → rank (parentOf s₀ x) < rank x
  idr : ∀ x ∈ F₀, s₀.inoIdr (inoOf s₀ x) = x

theorem Hierarchy.ino_inj (h : Hierarchy s₀ F₀ r rank) (hx : x ∈ F₀) (hy : y ∈ F₀)
    (hino : inoOf s₀ x = inoOf s₀ y) : x = y := by
  rw [← h.idr x hx, hino, h.idr y hy]

/-! ### Counts -/

/-- **The counts are right**: of the nodes in `F`, with the references from outside and those that are
about to be dropped. -/
structure Counted (s₀ : State) (held : ℕ → ℕ) (F : Finset ℕ) (pend : Multiset ℕ) (s : State) : Prop where
  live : ∀ x ∈ F, ∃ node₀ node, s₀.heap x = some node₀ ∧ s.heap x = some node ∧ Alike node₀ node ∧
    node.count = (refs (refsOut s₀) held F pend x : ℕ)
  pos : ∀ x ∈ F, 0 < refs (refsOut s₀) held F pend x
  pend : ∀ x ∈ pend, x ∈ F
  closed : ∀ y ∈ F, ∀ x ∈ refsOut s₀ y, x ∈ F
  idr : ∀ x ∈ F, s.inoIdr (inoOf s₀ x) = x
  root : s.rootFreed = true → F = ∅

theorem Counted.rootFreed (h : Counted s₀ held F pend s) (hx : x ∈ F) : s.rootFreed = false := by
  by_contra hfreed
  rw [Bool.not_eq_false] at hfreed
  rw [h.root hfreed] at hx
  exact Finset.notMem_empty x hx

/-- Nodes of `F` that are not in `F'` are freed, the others in `F` get other counts. -/
structure Drops (s₀ : State) (held : ℕ → ℕ) (s : State) (F : Finset ℕ) (s' : State) (F' : Finset ℕ) : Prop where
  subset : F' ⊆ F
  idle : ∀ x ∈ F, x ∉ F' → held x = 0
  gone : ∀ x ∈ F, x ∉ F' → s'.heap x = none ∧ s'.inoIdr (inoOf s₀ x) = 0
  kept : ∀ x ∈ F', ∃ node n, s.heap x = some node ∧ s'.heap x = some { node with count := n }
  frame : ∀ x, x ∉ F → s'.heap x = s.heap x
  siblings : s'.siblings = s.siblings
  zero : ∀ i, s.inoIdr i = 0 → s'.inoIdr i = 0

theorem Drops.trans (h : Drops s₀ held s F s₁ F₁) (h' : Drops s₀ held s₁ F₁ s' F') :
    Drops s₀ held s F s' F' where
  subset := h'.subset.trans h.subset
  idle x hx hx' := by
    by_cases hx₁ : x ∈ F₁
    · exact h'.idle x hx₁ hx'
    · exact h.idle x hx hx₁
  gone x hx hx' := by
    by_cases hx₁ : x ∈ F₁
    · exact h'.gone x hx₁ hx'
    · obtain ⟨hheap, hidr⟩ := h.gone x hx hx₁
      exact ⟨(h'.frame x hx₁).trans hheap, h'.zero _ hidr⟩
  kept x hx := by
    obtain ⟨node₁, n', hnode₁, hnode'⟩ := h'.kept x hx
    obtain ⟨node, n, hnode, hnode₁'⟩ := h.kept x (h'.subset hx)
    rw [hnode₁] at hnode₁'
    cases hnode₁'
    exact ⟨node, n', hnode, hnode'⟩
  frame x hx := (h'.frame x fun hx₁ => hx (h.subset hx₁)).trans (h.frame x hx)
  siblings := h'.siblings.trans h.siblings
  zero i hi := h'.zero i (h.zero i hi)

/-- A node that is not touched. -/
theorem Drops.insert (h : Drops s₀ held s F s' F') (hx : x ∉ F) (hnode : s.heap x = some node) :
    Drops s₀ held s (insert x F) s' (insert x F') where
  subset := Finset.insert_subset_insert x h.subset
  idle y hy hy' := h.idle y (Finset.mem_of_mem_insert_of_ne hy fun he => hy' (he ▸ Finset.mem_insert_self ..))
    fun hmem => hy' (Finset.mem_insert_of_mem hmem)
  gone y hy hy' := h.gone y (Finset.mem_of_mem_insert_of_ne hy fun he => hy' (he ▸ Finset.mem_insert_self ..))
    fun hmem => hy' (Finset.mem_insert_of_mem hmem)
  kept y hy := by
    rcases Finset.mem_insert.mp hy with rfl | hy
    · exact ⟨node, node.count, hnode, (h.frame y hx).trans hnode⟩
    · exact h.kept y hy
  frame y hy := h.frame y fun hmem => hy (Finset.mem_insert_of_mem hmem)
  siblings := h.siblings
  zero := h.zero

/-! ### Dropping a reference -/

/-- A count is written. -/
theorem Counted.drops_set (h : Counted s₀ held F pend s) (hx : x ∈ F) (hnode : s.heap x = some node) (n : ℤ) :
    Drops s₀ held s F (s.set x { node with count := n }) F where
  subset := Finset.Subset.refl F
  idle _ hy hy' := absurd hy hy'
  gone _ hy hy' := absurd hy hy'
  kept y hy := by
    by_cases hyx : y = x
    · subst hyx
      exact ⟨node, n, hnode, Function.update_self ..⟩
    · obtain ⟨-, node', -, hnode', -⟩ := h.live y hy
      exact ⟨node', node'.count, hnode', (Function.update_of_ne hyx ..).trans hnode'⟩
  frame y hy := by
    have hyx : y ≠ x := fun he => hy (he.symm ▸ hx)
    exact Function.update_of_ne hyx ..
  siblings := rfl
  zero _ hi := hi

/-- **`atomic_dec_and_test`**: the node stays, or it is without a reference and its own references are about
to be dropped. -/
theorem decAndTest_spec (h : Counted s₀ held F (x ::ₘ pend) s) : ∃ b s₁,
    decAndTest s x = some (b, s₁) ∧ s₁.rootFreed = s.rootFreed ∧ Drops s₀ held s F s₁ F ∧
      (b = false ∧ Counted s₀ held F pend s₁ ∨
        b = true ∧ Counted s₀ held (F.erase x) (refsOut s₀ x + pend) s₁ ∧ held x = 0) := by
  have hx : x ∈ F := h.pend x (Multiset.mem_cons_self x pend)
  obtain ⟨node₀, node, hnode₀, hnode, halike, hcount⟩ := h.live x hx
  have hdrop := refs_drop (refsOut s₀) held F pend x
  rw [hdrop, if_pos rfl] at hcount
  have hother : ∀ y, y ≠ x → (s.set x { node with count := node.count - 1 }).heap y = s.heap y := fun y hy =>
    Function.update_of_ne hy ..
  refine ⟨decide (node.count - 1 = 0), s.set x { node with count := node.count - 1 }, ?_, rfl,
    h.drops_set hx hnode _, ?_⟩
  · unfold decAndTest
    rw [hnode]
    rfl
  by_cases hzero : refs (refsOut s₀) held F pend x = 0
  · right
    obtain ⟨hpend, hF⟩ := notMem_of_refs_eq_zero hzero
    have hsame : ∀ y, y ≠ x →
        refs (refsOut s₀) held (F.erase x) (refsOut s₀ x + pend) y =
          refs (refsOut s₀) held F (x ::ₘ pend) y := by
      intro y hy
      rw [refs_release hx, hdrop, if_neg hy, Nat.add_zero]
    refine ⟨decide_eq_true (by rw [hcount, hzero]; rfl), ⟨fun y hy => ?_, fun y hy => ?_, fun y hy => ?_,
      fun y hy z hz => ?_, fun y hy => h.idr y (Finset.mem_of_mem_erase hy), fun hfreed => ?_⟩,
      held_eq_zero hzero⟩
    · obtain ⟨hyx, hy⟩ := Finset.mem_erase.mp hy
      obtain ⟨node₁, node', hnode₁, hnode', halike', hcount'⟩ := h.live y hy
      exact ⟨node₁, node', hnode₁, (hother y hyx).trans hnode', halike', by rw [hsame y hyx]; exact hcount'⟩
    · obtain ⟨hyx, hy⟩ := Finset.mem_erase.mp hy
      rw [hsame y hyx]
      exact h.pos y hy
    · rcases Multiset.mem_add.mp hy with hy | hy
      · exact Finset.mem_erase.mpr ⟨fun he => hF x hx (he ▸ hy), h.closed x hx y hy⟩
      · exact Finset.mem_erase.mpr ⟨fun he => hpend (he ▸ hy), h.pend y (Multiset.mem_cons_of_mem hy)⟩
    · have hy := Finset.mem_of_mem_erase hy
      exact Finset.mem_erase.mpr ⟨fun he => hF y hy (he ▸ hz), h.closed y hy z hz⟩
    · rw [h.root hfreed, Finset.erase_empty]
  · left
    have hle : ∀ y ∈ F, refs (refsOut s₀) held F pend y ≤ refs (refsOut s₀) held F (x ::ₘ pend) y := by
      intro y _
      rw [hdrop]
      omega
    refine ⟨decide_eq_false (by rw [hcount]; push_cast; omega), ⟨fun y hy => ?_, fun y hy => ?_,
      fun y hy => h.pend y (Multiset.mem_cons_of_mem hy), h.closed, h.idr, h.root⟩⟩
    · by_cases hyx : y = x
      · subst hyx
        refine ⟨node₀, _, hnode₀, Function.update_self .., ⟨halike.parent, halike.type, halike.target,
          halike.ino, halike.activated, halike.iattr⟩, ?_⟩
        show node.count - 1 = _
        rw [hcount]
        push_cast
        omega
      · obtain ⟨node₁, node', hnode₁, hnode', halike', hcount'⟩ := h.live y hy
        refine ⟨node₁, node', hnode₁, (hother y hyx).trans hnode', halike', ?_⟩
        rw [hcount', hdrop, if_neg hyx, Nat.add_zero]
    · by_cases hyx : y = x
      · rw [hyx]
        exact Nat.pos_of_ne_zero hzero
      · have := h.pos y hy
        rw [hdrop, if_neg hyx] at this
        exact this

/-! ### `bsfs_put` -/

/-- The label `repeat` works for up to `m` nodes that are counted. -/
def Releases (s₀ : State) (held : ℕ → ℕ) (F₀ : Finset ℕ) (m : ℕ) (release : State → ℕ → Option State) : Prop :=
  ∀ (s : State) (F : Finset ℕ) (pend : Multiset ℕ) (kn : ℕ) (node₀ node : Node), F.card < m → F ⊆ F₀ →
    Counted s₀ held F (refsOut s₀ kn + pend) s → kn ∈ F₀ → kn ∉ F → held kn = 0 →
    s₀.heap kn = some node₀ → s.heap kn = some node → Alike node₀ node → s.rootFreed = false →
    ∃ s' F', release s kn = some s' ∧ Counted s₀ held F' pend s' ∧ Drops s₀ held s (insert kn F) s' F'

variable {release : State → ℕ → Option State}

/-- A reference is dropped, and if it was the last one, the node is released. -/
theorem dropped (hrel : Releases s₀ held F₀ m release) (h : Counted s₀ held F (x ::ₘ pend) s)
    (hF : F ⊆ F₀) (hm : F.card ≤ m) : ∃ b s₁, decAndTest s x = some (b, s₁) ∧
      (b = true → (bsfsRoot s₁ x).isSome) ∧
      ∃ s' F', (if b = true then release s₁ x else some s₁) = some s' ∧ Counted s₀ held F' pend s' ∧
        Drops s₀ held s F s' F' := by
  have hx : x ∈ F := h.pend x (Multiset.mem_cons_self x pend)
  obtain ⟨b, s₁, hrun, hfreed, hdrops, ⟨rfl, hcounted⟩ | ⟨rfl, hcounted, hheld⟩⟩ := decAndTest_spec h
  · exact ⟨false, s₁, hrun, fun h => absurd h Bool.false_ne_true, s₁, F, if_neg Bool.false_ne_true, hcounted, hdrops⟩
  · obtain ⟨node₀, node, hnode₀, hnode, halike, -⟩ := h.live x hx
    obtain ⟨node', n, hnode', hnode₁⟩ := hdrops.kept x hx
    rw [hnode] at hnode'
    cases hnode'
    have halike₁ : Alike node₀ { node with count := n } :=
      ⟨halike.parent, halike.type, halike.target, halike.ino, halike.activated, halike.iattr⟩
    have hcard := Finset.card_erase_lt_of_mem hx
    obtain ⟨s', F', hrelease, hcounted', hdrops'⟩ := hrel _ _ _ _ _ _ (by omega) ((Finset.erase_subset x F).trans hF) hcounted
      (hF hx) (Finset.notMem_erase x F) hheld hnode₀ hnode₁ halike₁ (hfreed.trans (h.rootFreed hx))
    rw [Finset.insert_erase hx] at hdrops'
    refine ⟨true, s₁, hrun, fun _ => ?_, s', F', (if_pos rfl).trans hrelease, hcounted', hdrops.trans hdrops'⟩
    have hparent : node.parent = parentOf s₀ x := by
      unfold parentOf
      rw [hnode₀]
      exact halike.parent
    unfold bsfsRoot
    rw [hnode₁]
    simp only [Option.bind_eq_bind, Option.bind_some]
    split_ifs with hne
    · obtain ⟨-, par, -, hpar, -⟩ := hcounted.live node.parent
        (hcounted.pend _ (Multiset.mem_add.mpr (Or.inl (Multiset.mem_add.mpr (Or.inl
          (mem_ref.mpr ⟨hparent, hparent ▸ hne⟩))))))
      rw [hpar]
      rfl
    · rw [hnode₁]
      rfl

theorem putWith_spec (hrel : Releases s₀ held F₀ m release) (h : Counted s₀ held F (ref x + pend) s)
    (hF : F ⊆ F₀) (hm : F.card ≤ m) :
    ∃ s' F', putWith release s x = some s' ∧ Counted s₀ held F' pend s' ∧ Drops s₀ held s F s' F' := by
  unfold putWith
  by_cases hx : x = 0
  · have hcounted : Counted s₀ held F pend s := by
      rw [hx] at h
      exact (zero_add pend) ▸ h
    have hdrops : Drops s₀ held s F s F := ⟨Finset.Subset.refl F, fun _ hy hy' => absurd hy hy',
      fun _ hy hy' => absurd hy hy', fun y hy => ?_, fun _ _ => rfl, rfl, fun _ hi => hi⟩
    · exact ⟨s, F, if_pos hx, hcounted, hdrops⟩
    · obtain ⟨-, node, -, hnode, -⟩ := h.live y hy
      exact ⟨node, node.count, hnode, hnode⟩
  · rw [ref_of_ne hx] at h
    obtain ⟨b, s₁, hrun, hroot, s', F', hrelease, hcounted, hdrops⟩ := dropped hrel h hF hm
    refine ⟨s', F', ?_, hcounted, hdrops⟩
    rw [if_neg hx, hrun]
    cases b with
    | false => exact hrelease
    | true =>
      obtain ⟨u, hu⟩ := Option.isSome_iff_exists.mp (hroot rfl)
      show (bsfsRoot s₁ x).bind (fun _ => release s₁ x) = some s'
      rw [hu]
      exact hrelease

/-- The node itself leaves memory. -/
theorem free_spec (hh : Hierarchy s₀ F₀ r rank) (h : Counted s₀ held F pend s) (hF : F ⊆ F₀)
    (hkn : kn ∈ F₀) (hnot : kn ∉ F) (hheld : held kn = 0) (hfreed : s.rootFreed = false)
    (hs' : s' = { s with
      heap := Function.update s.heap kn none
      inoIdr := Function.update s.inoIdr (inoOf s₀ kn) 0 }) :
    Counted s₀ held F pend s' ∧ Drops s₀ held s (insert kn F) s' F := by
  subst hs'
  have hne : ∀ y ∈ F, y ≠ kn := fun y hy he => hnot (he ▸ hy)
  have hheap : ∀ y, y ≠ kn → Function.update s.heap kn none y = s.heap y := fun y hy =>
    Function.update_of_ne hy ..
  refine ⟨⟨fun y hy => ?_, h.pos, h.pend, h.closed, fun y hy => ?_, fun hf => ?_⟩,
    ⟨Finset.subset_insert kn F, fun y hy hy' => ?_, fun y hy hy' => ?_, fun y hy => ?_, fun y hy => ?_, rfl,
      fun i hi => ?_⟩⟩
  · obtain ⟨node₀, node, hnode₀, hnode, hrest⟩ := h.live y hy
    exact ⟨node₀, node, hnode₀, (hheap y (hne y hy)).trans hnode, hrest⟩
  · have hino : inoOf s₀ y ≠ inoOf s₀ kn := fun he => hne y hy (hh.ino_inj (hF hy) hkn he)
    exact (Function.update_of_ne hino ..).trans (h.idr y hy)
  · rw [hfreed] at hf
    cases hf
  · rcases Finset.mem_insert.mp hy with rfl | hy
    · exact hheld
    · exact absurd hy hy'
  · rcases Finset.mem_insert.mp hy with rfl | hy
    · exact ⟨Function.update_self .., Function.update_self ..⟩
    · exact absurd hy hy'
  · obtain ⟨-, node, -, hnode, -⟩ := h.live y hy
    exact ⟨node, node.count, hnode, (hheap y (hne y hy)).trans hnode⟩
  · exact hheap y fun he => hy (he ▸ Finset.mem_insert_self ..)
  · show Function.update s.inoIdr (inoOf s₀ kn) 0 i = 0
    by_cases hino : i = inoOf s₀ kn
    · rw [hino, Function.update_self]
    · rw [Function.update_of_ne hino, hi]

/-- Without the node `r` there is no node. -/
theorem eq_empty_of_root (hh : Hierarchy s₀ F₀ r rank) (h : Counted s₀ held F pend s) (hF : F ⊆ F₀)
    (hr : r ∉ F) : F = ∅ := by
  by_contra hne
  obtain ⟨y, hy, hmin⟩ := Finset.exists_min_image F rank (Finset.nonempty_iff_ne_empty.mpr hne)
  by_cases hpar : parentOf s₀ y = 0
  · exact hr (hh.root y (hF hy) hpar ▸ hy)
  · have hmem : parentOf s₀ y ∈ F :=
      h.closed y hy _ (Multiset.mem_add.mpr (Or.inl (mem_ref.mpr ⟨rfl, hpar⟩)))
    exact absurd (hmin _ hmem) (Nat.not_le.mpr (hh.rank y (hF hy) hpar))

/-- **The label `repeat`** frees the node and whatever loses its last reference with it. -/
theorem putRepeat_spec (hh : Hierarchy s₀ F₀ r rank) (held : ℕ → ℕ) : ∀ n,
    Releases s₀ held F₀ n (putRepeat n)
  | 0 => fun _ _ _ _ _ _ hcard => absurd hcard (Nat.not_lt_zero _)
  | n + 1 => fun s F pend kn node₀ node hcard hF h hkn hnot hheld hnode₀ hnode halike hfreed => by
    have ih := putRepeat_spec hh held n
    have hpar : node₀.parent = parentOf s₀ kn := by
      unfold parentOf
      rw [hnode₀]
      rfl
    have hino : node₀.ino = inoOf s₀ kn := by
      unfold inoOf
      rw [hnode₀]
      rfl
    -- the target of a link
    obtain ⟨s₁, F₁, hrun₁, h₁, hdrops₁, hroot₁⟩ : ∃ s₁ F₁,
        putTarget (putRepeat n) s node = some s₁ ∧
          Counted s₀ held F₁ (ref (parentOf s₀ kn) + pend) s₁ ∧ Drops s₀ held s F s₁ F₁ ∧
          (parentOf s₀ kn = 0 → s₁.rootFreed = false) := by
      by_cases hlink : node.type = .link
      · have htarget : node.target = targetOf s₀ kn := by
          unfold targetOf
          rw [hnode₀]
          show node.target = if node₀.type = .link then node₀.target else 0
          rw [if_pos (halike.type ▸ hlink), halike.target]
        have h' : Counted s₀ held F (ref node.target + (ref (parentOf s₀ kn) + pend)) s := by
          rw [htarget, ← add_assoc, add_comm (ref (targetOf s₀ kn))]
          exact h
        obtain ⟨s₁, F₁, hrun₁, h₁, hdrops₁⟩ := putWith_spec ih h' hF (by omega)
        refine ⟨s₁, F₁, (if_pos hlink).trans hrun₁, h₁, hdrops₁, fun hzero => ?_⟩
        obtain rfl := hh.root kn hkn hzero
        have hdir := hh.rootType node₀ hnode₀
        rw [← halike.type, hlink] at hdir
        cases hdir
      · have htarget : targetOf s₀ kn = 0 := by
          unfold targetOf
          rw [hnode₀]
          exact if_neg (halike.type ▸ hlink)
        have hout : refsOut s₀ kn = ref (parentOf s₀ kn) := by
          unfold refsOut
          rw [htarget]
          exact add_zero _
        rw [hout] at h
        have hdrops : Drops s₀ held s F s F := ⟨Finset.Subset.refl F, fun _ hy hy' => absurd hy hy',
          fun _ hy hy' => absurd hy hy', fun y hy => by
            obtain ⟨-, node, -, hnode, -⟩ := h.live y hy
            exact ⟨node, node.count, hnode, hnode⟩, fun _ _ => rfl, rfl, fun _ hi => hi⟩
        exact ⟨s, F, if_neg hlink, h, hdrops, fun _ => hfreed⟩
    have hnot₁ : kn ∉ F₁ := fun hmem => hnot (hdrops₁.subset hmem)
    have hF₁ : F₁ ⊆ F₀ := hdrops₁.subset.trans hF
    have hfreed₁ : s₁.rootFreed = false := by
      by_cases hzero : parentOf s₀ kn = 0
      · exact hroot₁ hzero
      · exact h₁.rootFreed (h₁.pend _ (Multiset.mem_add.mpr (Or.inl (mem_ref.mpr ⟨rfl, hzero⟩))))
    have hnode₁ : s₁.heap kn = some node := (hdrops₁.frame kn hnot).trans hnode
    -- the node itself
    obtain ⟨h₂, hdrops₂⟩ := free_spec hh h₁ hF₁ hkn hnot₁ hheld hfreed₁ rfl
    have hdrops := (hdrops₁.insert hnot hnode).trans hdrops₂
    have hcard₁ := Finset.card_le_card hdrops₁.subset
    rw [putRepeat, hnode]
    simp only [Option.bind_eq_bind, Option.bind_some]
    rw [hrun₁]
    have hidr : idrRemove s₁ node.ino = some { s₁ with inoIdr := Function.update s₁.inoIdr node.ino 0 } :=
      if_neg (by rw [hfreed₁]; exact Bool.false_ne_true)
    simp only [Option.bind_some, hnode₁, hidr]
    rw [halike.ino, hino, halike.parent, hpar]
    split_ifs with hzero
    · -- its parent
      rw [ref_of_ne hzero] at h₂
      obtain ⟨b, s₃, hrun₃, -, s', F', hrelease, hcounted, hdrops₃⟩ := dropped ih h₂ hF₁ (by omega)
      refine ⟨s', F', ?_, hcounted, hdrops.trans hdrops₃⟩
      rw [hrun₃]
      exact hrelease
    · -- the last node
      rw [not_not] at hzero
      obtain rfl := hh.root kn hkn hzero
      obtain rfl := eq_empty_of_root hh h₁ hF₁ hnot₁
      have hpend : pend = 0 := by
        refine Multiset.eq_zero_of_forall_notMem fun y hy => ?_
        exact Finset.notMem_empty y (h₁.pend y (Multiset.mem_add.mpr (Or.inr hy)))
      unfold destroyRoot
      rw [if_neg (by rw [hfreed₁]; exact Bool.false_ne_true)]
      refine ⟨_, ∅, rfl, ⟨fun y hy => absurd hy (Finset.notMem_empty y), fun y hy => absurd hy (Finset.notMem_empty y),
        fun y hy => ?_, fun y hy => absurd hy (Finset.notMem_empty y), fun y hy => absurd hy (Finset.notMem_empty y),
        fun _ => rfl⟩, hdrops.trans ⟨Finset.Subset.refl _, fun y hy => absurd hy (Finset.notMem_empty y),
          fun y hy => absurd hy (Finset.notMem_empty y), fun y hy => absurd hy (Finset.notMem_empty y),
          fun _ _ => rfl, rfl, fun _ _ => rfl⟩⟩
      rw [hpend] at hy
      exact absurd hy (Multiset.notMem_zero y)

/-- **`bsfs_put`** drops a reference and frees what is left without one. -/
theorem bsfsPut_spec {fuel : ℕ} (hh : Hierarchy s₀ F₀ r rank) (h : Counted s₀ held F (x ::ₘ pend) s)
    (hF : F ⊆ F₀) (hfuel : F.card ≤ fuel) :
    ∃ s' F', bsfsPut fuel s x = some s' ∧ Counted s₀ held F' pend s' ∧ Drops s₀ held s F s' F' := by
  have hx : x ≠ 0 := hh.ne_zero x (hF (h.pend x (Multiset.mem_cons_self x pend)))
  rw [← ref_of_ne hx] at h
  exact putWith_spec (putRepeat_spec hh held fuel) h hF hfuel

end HardStack.Bsfs.Put
