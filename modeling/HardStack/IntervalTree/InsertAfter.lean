import HardStack.IntervalTree.Iterate

/-! # Insertion right after a node

`interval_tree_insert_after` raises `rb_subtree_last` below `prev` only, although the new node comes
to stand below `prev` and all its ancestors. So the tree is right afterwards in two cases: the new
interval ends no later than one below `prev` did before, or the rebalancing ends with a rotation that
happens to recompute or replace the entry of `prev` while the entries above are high enough
(`Careful`). In every other case the entry of `prev` stays too low.

The proof compares two tables: the one in memory, and the one with the entries of `prev` and its
ancestors raised, which is exact before the rebalancing and which the rotations keep exact. -/

namespace HardStack.IntervalTree.InsertAfter

open HardStack.Lib.RbTree HardStack.Lib.SubtreeMax
open HardStack.Rbtree.Model HardStack.Rbtree.Layout HardStack.Rbtree.Callbacks
open HardStack.Rbtree.Run
open HardStack.IntervalTree.Model HardStack.IntervalTree.Augment HardStack.IntervalTree.Run
open HardStack.IntervalTree.Iterate

variable {A : Nodes} {s : State SubtreeLast} {t : CTree ℕ} {K : Ctx ℕ} {n k : ℕ}

/-! ### The condition -/

/-- The way down the left children, from the last one up. -/
def leftPath : CTree ℕ → Ctx ℕ
  | .nil => []
  | .node c l p r => leftPath l ++ [⟨.left, c, p, r⟩]

/-- The empty place right after `prev` in a tree below the context. -/
def gapAfter (prev : ℕ) : CTree ℕ → Ctx ℕ → Option (Ctx ℕ)
  | .nil, _ => none
  | .node c l p r, K =>
    if p = prev then some (leftPath r ++ ⟨.right, c, p, l⟩ :: K)
    else (gapAfter prev l (⟨.left, c, p, r⟩ :: K)).or (gapAfter prev r (⟨.right, c, p, l⟩ :: K))

/-- The rotation that ends the rebalancing of a red node `x` below the context, if one does: the node
that has come up by then, its parent and its grandparent. -/
def rotationSite : Ctx ℕ → ℕ → Option (ℕ × Frame ℕ × Frame ℕ)
  | f :: g :: K, x =>
    if f.color = .red then
      if g.sib.color = .red then rotationSite K g.ptr else some (x, f, g)
    else none
  | _, _ => none

/-- The rotation gives `prev` a new entry, and the entry of the grandparent covers `v`. -/
def Mends (a : ℕ → ℕ) (v prev : ℕ) (site : Option (ℕ × Frame ℕ × Frame ℕ)) : Prop :=
  ∃ x f g, site = some (x, f, g) ∧ v ≤ a g.ptr ∧ (f.ptr = prev ∨ x = prev ∧ f.dir ≠ g.dir)

/-- **The condition**, on the tree and the table before the call. -/
def Careful (A : Nodes) (a : ℕ → ℕ) (t : CTree ℕ) (node prev : ℕ) : Prop :=
  lastPgoff A node ≤ a prev ∨
    ∃ K, gapAfter prev t [] = some K ∧ Mends a (lastPgoff A node) prev (rotationSite K node)

/-! ### What a rotation writes -/

theorem rotatedData_off {a a' : SubtreeLast} {d : Dir} {g p : ℕ} {B U : CTree ℕ}
    (h : RotatedData (augment A k) a d g p B U a') (hpg : p ≠ g) :
    (∀ y, y ≠ g → y ≠ p → a'.last y = a.last y) ∧ a'.last p = a.last g ∧ a'.ended = a.ended := by
  obtain ⟨s, rfl, rfl, -, -⟩ := h
  refine ⟨fun y hg hp => ?_, ?_, rfl⟩
  · show ((s.aug.set p (s.aug.last g)).set g _).last y = _
    rw [SubtreeLast.last_set_of_ne _ _ hg, SubtreeLast.last_set_of_ne _ _ hp]
  · show ((s.aug.set p (s.aug.last g)).set g _).last p = _
    rw [SubtreeLast.last_set_of_ne _ _ hpg, SubtreeLast.last_set_self]

/-- The same rotation on another table. -/
theorem rotatedData_with {a a' : SubtreeLast} {d : Dir} {g p : ℕ} {B U : CTree ℕ}
    (h : RotatedData (augment A k) a d g p B U a') (e : SubtreeLast) :
    ∃ e', RotatedData (augment A k) e d g p B U e' := by
  obtain ⟨s, -, -, hB, hU⟩ := h
  exact ⟨_, s.augment e, rfl, rfl, hB, hU⟩

/-- Two tables that agree below a rotation get the same new entry there. -/
theorem rotatedData_low {a a' e e' : SubtreeLast} {d : Dir} {g p : ℕ} {B U : CTree ℕ}
    (ha : RotatedData (augment A k) a d g p B U a') (he : RotatedData (augment A k) e d g p B U e')
    (hB : Exact (lastPgoff A) e.last B) (hU : Exact (lastPgoff A) e.last U)
    (h0 : ∀ y, y ∈ B.inorder ∨ y ∈ U.inorder → y ≠ 0 ∧ y ≠ p ∧ a.last y = e.last y) :
    a'.last g = e'.last g := by
  have hB' : Exact (lastPgoff A) a.last B := exact_congr (fun y hy => (h0 y (Or.inl hy)).2.2) hB
  have hU' : Exact (lastPgoff A) a.last U := exact_congr (fun y hy => (h0 y (Or.inr hy)).2.2) hU
  have hpB : p ∉ B.inorder := fun hy => (h0 p (Or.inl hy)).2.1 rfl
  have hpU : p ∉ U.inorder := fun hy => (h0 p (Or.inr hy)).2.1 rfl
  have hzB : ∀ y ∈ B.inorder, y ≠ 0 := fun y hy => (h0 y (Or.inl hy)).1
  have hzU : ∀ y ∈ U.inorder, y ≠ 0 := fun y hy => (h0 y (Or.inr hy)).1
  rw [(rotatedData_eq ha (entry_of_exact hB' hzB) (entry_of_exact hU' hzU) hpB hpU).1,
    (rotatedData_eq he (entry_of_exact hB hzB) (entry_of_exact hU hzU) hpB hpU).1]
  unfold rotated
  rw [Function.update_self, Function.update_self]

/-! ### The loop with a low entry -/

section

variable {a₀ : SubtreeLast} {S : List ℕ} {v prev m : ℕ} {site : Option (ℕ × Frame ℕ × Frame ℕ)}

/-- The table that would be right: the nodes `S` get at least `v`. -/
def fixed (a₀ : SubtreeLast) (v : ℕ) (S : List ℕ) : SubtreeLast :=
  { a₀ with last := raise a₀.last v S }

/-- The path `S` from `prev` up to the root, as it lies in a context and the tree in its hole. -/
def Along (S : List ℕ) (K : Ctx ℕ) (T : CTree ℕ) : Prop :=
  S <:+ spine K ∨ ∃ W, S = W ++ spine K ∧ (∀ w ∈ W, w ∈ T.inorder) ∧
    (W = [] ∨ ∃ W', W = W' ++ [ptr T])

/-- **The invariant**: the table in memory is still the one before the rebalancing. -/
structure Stale (A : Nodes) (m : ℕ) (a₀ : SubtreeLast) (v : ℕ) (S : List ℕ)
    (site : Option (ℕ × Frame ℕ × Frame ℕ)) (a : SubtreeLast) (K : Ctx ℕ) (T : CTree ℕ) : Prop where
  table : a = a₀
  keeps : Keeps A m (fixed a₀ v S) (K.fill T)
  along : Along S K T
  site : rotationSite K (ptr T) = site

/-- What is known of the path: `prev` is its first node, and its entry is too low. -/
structure LowPath (a₀ : SubtreeLast) (v prev : ℕ) (S : List ℕ) : Prop where
  head : ∃ S', S = prev :: S'
  nodup : S.Nodup
  up : S.Pairwise fun x y => a₀.last x ≤ a₀.last y
  low : a₀.last prev < v

theorem fixed_of_notMem {x : ℕ} (h : x ∉ S) : (fixed a₀ v S).last x = a₀.last x := by
  simp [fixed, raise, h]

theorem fixed_of_mem {x : ℕ} (h : x ∈ S) : (fixed a₀ v S).last x = max (a₀.last x) v := by
  simp [fixed, raise, h]

/-- Entries that are high enough need no repair. -/
theorem fixed_eq (h : ∀ x ∈ S, v ≤ a₀.last x) : fixed a₀ v S = a₀ := by
  have hraise : raise a₀.last v S = a₀.last := by
    funext x
    by_cases hx : x ∈ S
    · have := h x hx
      simp only [raise, if_pos hx]
      omega
    · simp only [raise, if_neg hx]
  unfold fixed
  rw [hraise]

theorem LowPath.mem (h : LowPath a₀ v prev S) : prev ∈ S := by
  obtain ⟨S', rfl⟩ := h.head
  simp

theorem Along.mem {T : CTree ℕ} {x : ℕ} (h : Along S K T) (hx : x ∈ S) :
    x ∈ T.inorder ∨ x ∈ spine K := by
  rcases h with h | ⟨W, rfl, hW, -⟩
  · exact Or.inr (h.subset hx)
  · rcases List.mem_append.mp hx with hx | hx
    · exact Or.inl (hW x hx)
    · exact Or.inr hx

theorem Along.mem_fill {T : CTree ℕ} {x : ℕ} (h : Along S K T) (hx : x ∈ S) :
    x ∈ (K.fill T).inorder := by
  rw [Ctx.inorder_fill, Ctx.mem_around]
  exact (h.mem hx).imp_right spine_subset

/-- Two steps up. -/
theorem Along.up {f g : Frame ℕ} {T T' : CTree ℕ} (h : Along S (f :: g :: K) T)
    (hT : ptr T' = g.ptr) (hin : ∀ x, x ∈ T.inorder ∨ x = f.ptr ∨ x = g.ptr → x ∈ T'.inorder) :
    Along S K T' := by
  have hsp : spine (f :: g :: K) = f.ptr :: g.ptr :: spine K := rfl
  have hlast : ∀ W : List ℕ, W ++ [f.ptr, g.ptr] = (W ++ [f.ptr]) ++ [ptr T'] := by
    intro W
    rw [hT]
    simp
  rcases h with h | ⟨W, rfl, hW, -⟩
  · rw [hsp, List.suffix_cons_iff, List.suffix_cons_iff] at h
    rcases h with rfl | rfl | h
    · refine Or.inr ⟨[f.ptr, g.ptr], rfl, ?_, Or.inr ⟨[f.ptr], hlast []⟩⟩
      intro w hw
      rcases List.mem_cons.mp hw with rfl | hw
      · exact hin _ (Or.inr (Or.inl rfl))
      · exact hin _ (Or.inr (Or.inr (List.mem_singleton.mp hw)))
    · refine Or.inr ⟨[g.ptr], rfl, ?_, Or.inr ⟨[], by rw [hT]; rfl⟩⟩
      intro w hw
      exact hin _ (Or.inr (Or.inr (List.mem_singleton.mp hw)))
    · exact Or.inl h
  · refine Or.inr ⟨W ++ [f.ptr, g.ptr], by rw [hsp]; simp, ?_, Or.inr ⟨_, hlast W⟩⟩
    intro w hw
    rcases List.mem_append.mp hw with hw | hw
    · exact hin _ (Or.inl (hW w hw))
    · rcases List.mem_cons.mp hw with rfl | hw
      · exact hin _ (Or.inr (Or.inl rfl))
      · exact hin _ (Or.inr (Or.inr (List.mem_singleton.mp hw)))

/-- A table that leaves the entry of `prev` as it was is not exact. -/
theorem not_exact_of_low {b e' : SubtreeLast} {t' : CTree ℕ} (hS : LowPath a₀ v prev S)
    (he : Exact (lastPgoff A) e'.last t') (hmem : prev ∈ t'.inorder)
    (hb : b.last prev = a₀.last prev) (he' : e'.last prev = (fixed a₀ v S).last prev) :
    ¬ Exact (lastPgoff A) b.last t' := by
  intro hbx
  have h1 := exact_unique hbx he prev hmem
  rw [hb, he', fixed_of_mem hS.mem] at h1
  have := hS.low
  omega

/-- The path where `prev` is the upper frame of the context. -/
theorem Along.eq_of_parent {f g : Frame ℕ} {T : CTree ℕ} (h : Along S (f :: g :: K) T)
    (hS : ∃ S', S = f.ptr :: S') (hf : f.ptr ∉ g.ptr :: spine K) (hT : f.ptr ∉ T.inorder) :
    S = f.ptr :: g.ptr :: spine K := by
  obtain ⟨S', rfl⟩ := hS
  have hsp : spine (f :: g :: K) = f.ptr :: g.ptr :: spine K := rfl
  rcases h with h | ⟨W, hW, hWT, -⟩
  · rw [hsp, List.suffix_cons_iff] at h
    rcases h with h | h
    · exact h
    · exact absurd (h.subset List.mem_cons_self) hf
  · cases W with
    | nil => exact hW
    | cons w W =>
      obtain rfl : f.ptr = w := (List.cons.inj hW).1
      exact absurd (hWT _ List.mem_cons_self) hT

/-- The path where `prev` is the root of the tree in the hole. -/
theorem Along.eq_of_top {f g : Frame ℕ} {T : CTree ℕ} (h : Along S (f :: g :: K) T)
    (hS : ∃ S', S = ptr T :: S') (hnd : S.Nodup) (hT : ptr T ∉ f.ptr :: g.ptr :: spine K) :
    S = ptr T :: f.ptr :: g.ptr :: spine K := by
  obtain ⟨S', rfl⟩ := hS
  have hsp : spine (f :: g :: K) = f.ptr :: g.ptr :: spine K := rfl
  rcases h with h | ⟨W, hW, -, rfl | ⟨W', rfl⟩⟩
  · exact absurd (h.subset List.mem_cons_self) hT
  · rw [List.nil_append, hsp] at hW
    exact absurd (hW ▸ List.mem_cons_self) hT
  · cases W' with
    | nil => exact hW
    | cons w W' =>
      rw [List.cons_append, List.cons_append] at hW
      obtain ⟨-, rfl⟩ := List.cons.inj hW
      rw [List.nodup_cons] at hnd
      exact absurd (by simp) hnd.1

theorem mends_some {a : ℕ → ℕ} {x : ℕ} {f g : Frame ℕ} : Mends a v prev (some (x, f, g)) ↔
    v ≤ a g.ptr ∧ (f.ptr = prev ∨ x = prev ∧ f.dir ≠ g.dir) := by
  constructor
  · rintro ⟨x', f', g', heq, h⟩
    obtain ⟨rfl, rfl, rfl⟩ : x = x' ∧ f = f' ∧ g = g' := by simpa using heq
    exact h
  · exact fun h => ⟨x, f, g, rfl, h⟩

/-- Above a node whose entry covers `v` the table needs no repair. -/
theorem fixed_above {g x : ℕ} {W L : List ℕ} (hS : LowPath a₀ v prev S) (heq : S = W ++ g :: L)
    (hg : v ≤ a₀.last g) (hx : x ∉ W) : (fixed a₀ v S).last x = a₀.last x := by
  by_cases hmem : x ∈ S
  · have hle : v ≤ a₀.last x := by
      have hup := hS.up
      rw [heq, List.pairwise_append, List.pairwise_cons] at hup
      rw [heq, List.mem_append, List.mem_cons] at hmem
      rcases hmem with h | rfl | h
      · exact absurd h hx
      · exact hg
      · exact hg.trans (hup.2.1.1 x h)
    rw [fixed_of_mem hmem]
    omega
  · exact fixed_of_notMem hmem

/-- The loop ends with one rotation. -/
theorem stale_outer {a a' : SubtreeLast} {d : Dir} {N B U : CTree ℕ} {p g : ℕ}
    (hS : LowPath a₀ v prev S) (hU : U.color = .black)
    (hP : Proper (Ctx.fill (⟨d, .red, p, B⟩ :: ⟨d, .black, g, U⟩ :: K) N))
    (hr : RotatedData (augment A k) a d g p B U a')
    (hI : Stale A m a₀ v S site a (⟨d, .red, p, B⟩ :: ⟨d, .black, g, U⟩ :: K) N) :
    a'.ended = true ∧ (Exact (lastPgoff A) a'.last (K.fill (.mk d .black N p (.mk d .red B g U))) ↔
      Mends a₀.last v prev site) := by
  obtain ⟨rfl, hkeeps, halong, hsite⟩ := hI
  obtain ⟨e', he⟩ := rotatedData_with hr (fixed a v S)
  have hke := (augment_upkeep A m k).insertRule.outer hU hP he hkeeps
  have hfill : Ctx.fill (⟨d, .red, p, B⟩ :: ⟨d, .black, g, U⟩ :: K) N =
    K.fill (.mk d .black (.mk d .red N p B) g U) := rfl
  have hnd := hP.nodup
  have h0 := hP.ne_zero
  rw [hfill] at hnd h0
  simp only [Ctx.inorder_fill, Ctx.nodup_around, Ctx.mem_around, CTree.inorder_mk, nodup_ord,
    mem_ord, not_or, List.Disjoint] at hnd h0
  obtain ⟨⟨⟨hgp, hgN, hgB⟩, hgU, ⟨hpN, hpB, -, -, hNB⟩, -, hdU⟩, -, hKd⟩ := hnd
  have hpK : p ∉ g :: spine K := by
    rw [List.mem_cons, not_or]
    exact ⟨fun h => hgp h.symm, fun h => hKd (Or.inr (Or.inl (Or.inl rfl))) (spine_subset h)⟩
  obtain ⟨haoff, hap, haended⟩ := rotatedData_off hr fun h => hgp h.symm
  obtain ⟨heoff, hep, -⟩ := rotatedData_off he fun h => hgp h.symm
  have hpin : p ∈ (K.fill (.mk d .black N p (.mk d .red B g U))).inorder := by
    rw [Ctx.inorder_fill, Ctx.mem_around, CTree.inorder_mk, mem_ord]
    exact Or.inl (Or.inl rfl)
  rw [← hsite, rotationSite]
  simp only [if_true, hU]
  rw [if_neg (by simp), mends_some]
  simp only [ne_eq, not_true_eq_false, and_false, or_false]
  refine ⟨haended.trans hkeeps.ended, fun hex => ?_, fun ⟨hv, hp⟩ => ?_⟩
  · -- the entry of `prev` was written, so `prev` is the node that came up
    have hpe := exact_unique hex hke.exact p hpin
    rw [hap, hep] at hpe
    have hprev : p = prev := by
      by_contra hne
      have hgprev : prev ≠ g := by
        rintro rfl
        rw [fixed_of_mem hS.mem] at hpe
        have := hS.low
        omega
      have hin : prev ∈ (K.fill (.mk d .black N p (.mk d .red B g U))).inorder := by
        have := halong.mem_fill hS.mem
        rw [hfill] at this
        simp only [Ctx.inorder_fill, Ctx.mem_around, CTree.inorder_mk, mem_ord] at this ⊢
        tauto
      exact not_exact_of_low hS hke.exact hin (haoff prev hgprev (Ne.symm hne))
        (heoff prev hgprev (Ne.symm hne)) hex
    subst hprev
    have hSeq := halong.eq_of_parent hS.head hpK hpN
    rw [fixed_of_mem (by rw [hSeq]; simp)] at hpe
    exact ⟨by omega, rfl⟩
  · subst hp
    have hSeq := halong.eq_of_parent hS.head hpK hpN
    have hfix : ∀ x, x ≠ p → (fixed a v S).last x = a.last x := fun x hx =>
      fixed_above (W := [p]) hS hSeq hv (by simpa using hx)
    refine exact_congr (fun y _ => ?_) hke.exact
    by_cases hyg : y = g
    · subst hyg
      obtain ⟨-, hxB, hxU⟩ : True ∧ Exact (lastPgoff A) (fixed a v S).last B ∧
          Exact (lastPgoff A) (fixed a v S).last U := by
        have hx := hkeeps.exact
        rw [hfill] at hx
        obtain ⟨-, hNp, hxU⟩ := exact_mk.mp (exact_fill.mp hx).1
        exact ⟨trivial, (exact_mk.mp hNp).2.2, hxU⟩
      refine rotatedData_low hr he hxB hxU fun x hx => ⟨h0 x (by tauto), ?_, ?_⟩
      · rintro rfl
        rcases hx with hx | hx
        · exact hpB hx
        · exact hdU (Or.inl rfl) hx
      · refine (hfix x ?_).symm
        rintro rfl
        rcases hx with hx | hx
        · exact hpB hx
        · exact hdU (Or.inl rfl) hx
    · by_cases hyp : y = p
      · subst hyp
        rw [hap, hep, hfix g fun h => hgp h]
      · rw [haoff y hyg hyp, heoff y hyg hyp, hfix y hyp]

/-- The loop ends with two rotations. -/
theorem stale_inner {a b a' : SubtreeLast} {d : Dir} {L X Y U : CTree ℕ} {x p g : ℕ}
    (hS : LowPath a₀ v prev S) (hU : U.color = .black)
    (hP : Proper (Ctx.fill (⟨d.flip, .red, p, L⟩ :: ⟨d, .black, g, U⟩ :: K) (.mk d .red X x Y)))
    (hr₁ : RotatedData (augment A k) a d.flip p x X L b)
    (hr₂ : RotatedData (augment A k) b d g x Y U a')
    (hI : Stale A m a₀ v S site a (⟨d.flip, .red, p, L⟩ :: ⟨d, .black, g, U⟩ :: K)
      (.mk d .red X x Y)) :
    a'.ended = true ∧ (Exact (lastPgoff A) a'.last
      (K.fill (.mk d .black (.mk d .red L p X) x (.mk d .red Y g U))) ↔
      Mends a₀.last v prev site) := by
  obtain ⟨rfl, hkeeps, halong, hsite⟩ := hI
  obtain ⟨e₁, he₁⟩ := rotatedData_with hr₁ (fixed a v S)
  obtain ⟨e₂, he₂⟩ := rotatedData_with hr₂ e₁
  have hke := (augment_upkeep A m k).insertRule.inner hU hP he₁ he₂ hkeeps
  have hfill : Ctx.fill (⟨d.flip, .red, p, L⟩ :: ⟨d, .black, g, U⟩ :: K) (.mk d .red X x Y) =
    K.fill (.mk d .black (.mk d.flip .red (.mk d .red X x Y) p L) g U) := rfl
  have hnd := hP.nodup
  have h0 := hP.ne_zero
  rw [hfill] at hnd h0
  simp only [Ctx.inorder_fill, Ctx.nodup_around, Ctx.mem_around, CTree.inorder_mk, nodup_ord,
    mem_ord, not_or, List.Disjoint] at hnd h0
  obtain ⟨⟨⟨hgp, ⟨hgx, -, hgY⟩, -⟩, hgU, ⟨⟨hpx, hpX, hpY⟩, hpL, ⟨hxX, hxY, -⟩, -, hTL⟩, -, hdU⟩, -,
    hKd⟩ := hnd
  have hxL : x ∉ L.inorder := fun h => hTL (Or.inl rfl) h
  have hxU : x ∉ U.inorder := fun h => hdU (Or.inr (Or.inl (Or.inl rfl))) h
  have hpU : p ∉ U.inorder := fun h => hdU (Or.inl rfl) h
  have hpK : p ∉ g :: spine K := by
    rw [List.mem_cons, not_or]
    exact ⟨fun h => hgp h.symm, fun h => hKd (Or.inr (Or.inl (Or.inl rfl))) (spine_subset h)⟩
  have hxK : x ∉ p :: g :: spine K := by
    rw [List.mem_cons, List.mem_cons, not_or, not_or]
    exact ⟨fun h => hpx h.symm, fun h => hgx h.symm,
      fun h => hKd (Or.inr (Or.inl (Or.inr (Or.inl (Or.inl rfl))))) (spine_subset h)⟩
  have hpT : p ∉ (CTree.mk d .red X x Y).inorder := by
    rw [CTree.inorder_mk, mem_ord]
    tauto
  obtain ⟨hboff, -, hbend⟩ := rotatedData_off hr₁ fun h => hpx h.symm
  obtain ⟨haoff, hax, haend⟩ := rotatedData_off hr₂ fun h => hgx h.symm
  obtain ⟨he₁off, -, -⟩ := rotatedData_off he₁ fun h => hpx h.symm
  obtain ⟨he₂off, hex, -⟩ := rotatedData_off he₂ fun h => hgx h.symm
  rw [hboff g hgp hgx] at hax
  rw [he₁off g hgp hgx] at hex
  have hoff : ∀ y, y ≠ x → y ≠ p → y ≠ g → a'.last y = a.last y ∧
      e₂.last y = (fixed a v S).last y := fun y hx hp hg =>
    ⟨(haoff y hg hx).trans (hboff y hp hx), (he₂off y hg hx).trans (he₁off y hp hx)⟩
  have hxin : x ∈ (K.fill (.mk d .black (.mk d .red L p X) x (.mk d .red Y g U))).inorder := by
    rw [Ctx.inorder_fill, Ctx.mem_around, CTree.inorder_mk, mem_ord]
    exact Or.inl (Or.inl rfl)
  rw [← hsite, rotationSite]
  simp only [if_true, hU]
  rw [if_neg (by simp), mends_some, ptr_mk]
  simp only [ne_eq, Dir.flip_ne, not_false_eq_true, and_true]
  refine ⟨haend.trans (hbend.trans hkeeps.ended), fun hexact => ?_, ?_⟩
  · -- the entry of `prev` was written, so `prev` is the parent or the node that came up
    have hxe := exact_unique hexact hke.exact x hxin
    rw [hax, hex] at hxe
    have hprev : p = prev ∨ x = prev := by
      by_contra hne
      rw [not_or] at hne
      have hgprev : prev ≠ g := by
        rintro rfl
        rw [fixed_of_mem hS.mem] at hxe
        have := hS.low
        omega
      have hin : prev ∈
          (K.fill (.mk d .black (.mk d .red L p X) x (.mk d .red Y g U))).inorder := by
        have := halong.mem_fill hS.mem
        rw [hfill] at this
        simp only [Ctx.inorder_fill, Ctx.mem_around, CTree.inorder_mk, mem_ord] at this ⊢
        tauto
      obtain ⟨h1, h2⟩ := hoff prev (Ne.symm hne.2) (Ne.symm hne.1) hgprev
      exact not_exact_of_low hS hke.exact hin h1 h2 hexact
    refine ⟨?_, hprev⟩
    have hgS : g ∈ S := by
      rcases hprev with rfl | rfl
      · rw [halong.eq_of_parent hS.head hpK hpT]; simp
      · rw [halong.eq_of_top (by rw [ptr_mk]; exact hS.head) hS.nodup (by rw [ptr_mk]; exact hxK)]
        simp
    rw [fixed_of_mem hgS] at hxe
    omega
  · rintro ⟨hv, hp⟩
    have hfix : ∀ y, y ≠ p → y ≠ x → (fixed a v S).last y = a.last y := by
      intro y hyp hyx
      rcases hp with rfl | rfl
      · have hSeq := halong.eq_of_parent hS.head hpK hpT
        exact fixed_above (W := [p]) hS hSeq hv (by simpa using hyp)
      · have hSeq := halong.eq_of_top (by rw [ptr_mk]; exact hS.head) hS.nodup
          (by rw [ptr_mk]; exact hxK)
        rw [ptr_mk] at hSeq
        exact fixed_above (W := [x, p]) hS hSeq hv (by simp [hyp, hyx])
    obtain ⟨hxX', hxY', hxL', hxU'⟩ : Exact (lastPgoff A) (fixed a v S).last X ∧
        Exact (lastPgoff A) (fixed a v S).last Y ∧ Exact (lastPgoff A) (fixed a v S).last L ∧
        Exact (lastPgoff A) (fixed a v S).last U := by
      have hx := hkeeps.exact
      rw [hfill] at hx
      obtain ⟨-, hTp, hxU⟩ := exact_mk.mp (exact_fill.mp hx).1
      obtain ⟨-, hT, hxL⟩ := exact_mk.mp hTp
      obtain ⟨-, hxX, hxY⟩ := exact_mk.mp hT
      exact ⟨hxX, hxY, hxL, hxU⟩
    refine exact_congr (fun y _ => ?_) hke.exact
    by_cases hyg : y = g
    · subst hyg
      refine rotatedData_low hr₂ he₂ (exact_congr (fun z hz => ?_) hxY')
        (exact_congr (fun z hz => ?_) hxU') fun z hz => ⟨h0 z (by tauto), ?_, ?_⟩
      · exact he₁off z (fun h => hpY (h ▸ hz)) fun h => hxY (h ▸ hz)
      · exact he₁off z (fun h => hpU (h ▸ hz)) fun h => hxU (h ▸ hz)
      · rintro rfl
        exact hz.elim hxY hxU
      · have hzp : z ≠ p := by
          rintro rfl
          exact hz.elim hpY hpU
        have hzx : z ≠ x := by
          rintro rfl
          exact hz.elim hxY hxU
        rw [hboff z hzp hzx, he₁off z hzp hzx, hfix z hzp hzx]
    · by_cases hyx : y = x
      · subst hyx
        rw [hax, hex, hfix g hgp hgx]
      · by_cases hyp : y = p
        · subst hyp
          rw [haoff y hyg hyx, he₂off y hyg hyx]
          refine rotatedData_low hr₁ he₁ hxX' hxL' fun z hz => ⟨h0 z (by tauto), ?_, ?_⟩
          · rintro rfl
            exact hz.elim hxX hxL
          · refine (hfix z ?_ ?_).symm
            · rintro rfl
              exact hz.elim hpX hpL
            · rintro rfl
              exact hz.elim hxX hxL
        · rw [(hoff y hyx hyp hyg).1, (hoff y hyx hyp hyg).2, hfix y hyp hyx]

/-- **The rule for the loop** with a low entry: the result is right exactly if the rotation mends
it. -/
theorem stale_insertRule (hS : LowPath a₀ v prev S) : InsertRule (augment A k) (Stale A m a₀ v S site)
    fun a' t' => a'.ended = true ∧ (Exact (lastPgoff A) a'.last t' ↔ Mends a₀.last v prev site) where
  root := by
    rintro a T ⟨rfl, hkeeps, halong, hsite⟩
    refine ⟨hkeeps.ended, fun hex => ?_, fun ⟨_, _, _, h, _⟩ => ?_⟩
    · exact absurd (exact_paint.mp hex)
        (not_exact_of_low hS hkeeps.exact (halong.mem_fill hS.mem) rfl rfl)
    · rw [← hsite] at h
      cases h
  black := by
    rintro a f K T hf ⟨rfl, hkeeps, halong, hsite⟩
    refine ⟨hkeeps.ended, fun hex => ?_, fun ⟨_, _, _, h, _⟩ => ?_⟩
    · exact absurd hex (not_exact_of_low hS hkeeps.exact (halong.mem_fill hS.mem) rfl rfl)
    · rw [← hsite] at h
      cases K with
      | nil => cases h
      | cons g K => simp [rotationSite, hf] at h
  flip := by
    rintro a f g K T hf hg ⟨rfl, hkeeps, halong, hsite⟩
    refine ⟨rfl, (augment_upkeep A m k).insertRule.flip hf hg hkeeps, halong.up ptr_mk ?_, ?_⟩
    · intro x hx
      rw [CTree.inorder_mk, CTree.inorder_mk, mem_ord, mem_ord]
      tauto
    · rw [← hsite, ptr_mk, rotationSite]
      simp only [hf, hg, if_true]
  outer hU hP hr hI := stale_outer hS hU hP hr hI
  inner hU hP hr₁ hr₂ hI := stale_inner hS hU hP hr₁ hr₂ hI

end

/-! ### The place -/

theorem leftPath_fill : ∀ t : CTree ℕ, (leftPath t).fill .nil = t
  | .nil => rfl
  | .node c l p r => by
    rw [leftPath, Ctx.fill_append, leftPath_fill l]
    rfl

theorem leftPath_around : ∀ (t : CTree ℕ) (L : List ℕ), (leftPath t).around L = L ++ t.inorder
  | .nil, L => (List.append_nil L).symm
  | .node c l p r, L => by
    rw [leftPath, Ctx.around_append, leftPath_around l]
    show (L ++ l.inorder) ++ p :: r.inorder = L ++ (l.inorder ++ p :: r.inorder)
    rw [List.append_assoc]

theorem leftPath_dir : ∀ {t : CTree ℕ}, ∀ f ∈ leftPath t, f.dir = .left
  | .nil, _, hf => by cases hf
  | .node c l p r, f, hf => by
    rcases List.mem_append.mp hf with hf | hf
    · exact leftPath_dir f hf
    · rw [List.mem_singleton.mp hf]

theorem gapAfter_of_notMem {prev : ℕ} : ∀ {t : CTree ℕ} {K : Ctx ℕ}, prev ∉ t.inorder →
    gapAfter prev t K = none
  | .nil, _, _ => rfl
  | .node c l p r, K, h => by
    have hin : (CTree.node c l p r).inorder = l.inorder ++ p :: r.inorder := rfl
    rw [hin, List.mem_append, List.mem_cons, not_or, not_or] at h
    rw [gapAfter, if_neg (Ne.symm h.2.1), gapAfter_of_notMem h.1, gapAfter_of_notMem h.2.2]
    rfl

theorem gapAfter_fill {prev : ℕ} {c : Color} {l r : CTree ℕ} : ∀ {Z K : Ctx ℕ},
    (Ctx.around Z (CTree.node c l prev r).inorder).Nodup →
    gapAfter prev (Ctx.fill Z (.node c l prev r)) K =
      some (leftPath r ++ ⟨.right, c, prev, l⟩ :: (Z ++ K)) := by
  intro Z
  induction Z using List.reverseRecOn with
  | nil =>
    intro K _
    rw [Ctx.fill, gapAfter, if_pos rfl]
    rfl
  | append_singleton Z f ih =>
    intro K hnd
    have hmem : prev ∈ (Ctx.fill Z (.node c l prev r)).inorder := by
      rw [Ctx.inorder_fill, Ctx.mem_around]
      exact Or.inl (by simp [CTree.inorder])
    rw [Ctx.around_append] at hnd
    change (ord f.dir _ f.ptr f.sib.inorder).Nodup at hnd
    rw [← Ctx.inorder_fill] at hnd
    obtain ⟨hf, -, hndZ, -, hdis⟩ := nodup_ord.mp hnd
    rw [Ctx.inorder_fill] at hndZ
    have hne : f.ptr ≠ prev := fun h => hf (h ▸ hmem)
    have hsib : prev ∉ f.sib.inorder := fun h => hdis hmem h
    have hrec := ih (K := f :: K) hndZ
    rw [Ctx.fill_append, List.append_assoc]
    obtain ⟨d, cf, q, S⟩ := f
    cases d with
    | left =>
      show gapAfter prev (.node cf _ q S) K = _
      rw [gapAfter, if_neg hne, hrec]
      rfl
    | right =>
      show gapAfter prev (.node cf S q _) K = _
      rw [gapAfter, if_neg hne, gapAfter_of_notMem hsib, hrec]
      rfl

theorem rotationSite_mem : ∀ {K : Ctx ℕ} {x₀ x : ℕ} {f g : Frame ℕ},
    rotationSite K x₀ = some (x, f, g) →
    ∃ K₁ K₂, K = K₁ ++ f :: g :: K₂ ∧ (x = x₀ ∨ x ∈ spine K₁)
  | f :: g :: K, x₀, x, f', g', h => by
    rw [rotationSite] at h
    split_ifs at h with hf hg
    · obtain ⟨K₁, K₂, rfl, hx⟩ := rotationSite_mem h
      refine ⟨f :: g :: K₁, K₂, rfl, Or.inr ?_⟩
      have hsp : spine (f :: g :: K₁) = f.ptr :: g.ptr :: spine K₁ := rfl
      rw [hsp]
      rcases hx with rfl | hx
      · simp
      · simp [hx]
    · obtain ⟨rfl, rfl, rfl⟩ : x₀ = x ∧ f = f' ∧ g = g' := by simpa using h
      exact ⟨[], K, rfl, Or.inl rfl⟩

/-- Where the rotation mends `prev`, the grandparent stands above `prev`. -/
theorem mends_congr {K : Ctx ℕ} {L S' : List ℕ} {a b : ℕ → ℕ} {v prev node : ℕ}
    (hsp : spine K = L ++ prev :: S') (hnd : (spine K).Nodup) (hnode : node ≠ prev)
    (hab : ∀ x ∈ S', a x = b x) :
    Mends a v prev (rotationSite K node) ↔ Mends b v prev (rotationSite K node) := by
  have key : ∀ x f g, rotationSite K node = some (x, f, g) →
      (f.ptr = prev ∨ x = prev ∧ f.dir ≠ g.dir) → g.ptr ∈ S' := by
    intro x f g hs hp
    obtain ⟨K₁, K₂, rfl, hx⟩ := rotationSite_mem hs
    have hsp' : spine (K₁ ++ f :: g :: K₂) = spine K₁ ++ f.ptr :: g.ptr :: spine K₂ := by
      simp [spine]
    obtain ⟨W, M, hWM, hgM⟩ : ∃ W M, spine (K₁ ++ f :: g :: K₂) = W ++ prev :: M ∧ g.ptr ∈ M := by
      rcases hp with rfl | ⟨rfl, -⟩
      · exact ⟨spine K₁, g.ptr :: spine K₂, hsp', by simp⟩
      · obtain ⟨W, M, hWM⟩ := List.append_of_mem (hx.resolve_left hnode.symm)
        exact ⟨W, M ++ f.ptr :: g.ptr :: spine K₂, by rw [hsp', hWM]; simp, by simp⟩
    rw [hWM, List.nodup_append, List.nodup_cons] at hnd
    have hpW : prev ∉ W := fun h => hnd.2.2 prev h prev (by simp) rfl
    rw [((List.append_cons_inj_of_notMem hpW hnd.2.1.1).mp (hWM.symm.trans hsp)).2.2] at hgM
    exact hgM
  constructor
  · rintro ⟨x, f, g, hs, hv, hp⟩
    exact ⟨x, f, g, hs, by rw [← hab _ (key x f g hs hp)]; exact hv, hp⟩
  · rintro ⟨x, f, g, hs, hv, hp⟩
    exact ⟨x, f, g, hs, by rw [hab _ (key x f g hs hp)]; exact hv, hp⟩

/-! ### The walk -/

theorem leftmostWalk_spec {v : ℕ} : ∀ {T : CTree ℕ} {par n : ℕ} {s : State SubtreeLast},
    Rep s par T → T ≠ .nil → T.inorder.length ≤ n →
    leftmostWalk v n (raiseLast s (ptr T) v) (ptr T) =
      some (s.augment { s.aug with last := raise s.aug.last v (spine (leftPath T)) },
        top (leftPath T))
  | .nil, _, _, _, _, hne, _ => absurd rfl hne
  | .node c l p r, par, n, s, hrep, _, hn => by
    obtain ⟨hp, -, hcl, -, hl, -⟩ := hrep
    have hin : (CTree.node c l p r).inorder = l.inorder ++ p :: r.inorder := rfl
    rw [hin, List.length_append, List.length_cons] at hn
    obtain ⟨n, rfl⟩ : ∃ m, n = m + 1 := ⟨n - 1, by omega⟩
    show leftmostWalk v (n + 1) (raiseLast s p v) p = _
    rw [raiseLast_eq, leftmostWalk]
    set s' := s.augment { s.aug with last := raise s.aug.last v [p] } with hs'
    have hcl' : s'.child .left p = ptr l := hcl
    simp only [hcl']
    by_cases hne : l = .nil
    · subst hne
      rw [if_neg (by simp)]
      rfl
    · have hl' : Rep s' p l := rep_congr (s := s) (fun x _ => ⟨rfl, fun _ => rfl⟩) hl
      rw [if_pos (ptr_ne_zero hl hne), leftmostWalk_spec hl' hne (by omega)]
      have hsp : spine (leftPath (.node c l p r)) = spine (leftPath l) ++ [p] := by
        simp [leftPath, spine]
      have htop : top (leftPath (.node c l p r)) = top (leftPath l) := by
        rw [leftPath]
        cases l with
        | nil => exact absurd rfl hne
        | node c' l' p' r' =>
          rw [leftPath]
          cases leftPath l' <;> rfl
      rw [hsp, htop, ← raise_raise]
      rfl

/-- The table before the rebalancing: the walk has raised the nodes `L`, and the new node has `v`. -/
def leafTable (a : SubtreeLast) (v node : ℕ) (L : List ℕ) : SubtreeLast :=
  SubtreeLast.set { a with last := raise a.last v L } node v

theorem leafTable_of_ne {a : SubtreeLast} {v node x : ℕ} {L : List ℕ} (h : x ≠ node) :
    (leafTable a v node L).last x = raise a.last v L x := by
  unfold leafTable
  rw [SubtreeLast.last_set_of_ne _ _ h]

/-- **The walk and the link**: the new leaf stands at the hole right after `prev`. -/
theorem insertAfter_eq {c : Color} {l r : CTree ℕ} {node prev fuel : ℕ}
    (h : At s K (.node c l prev r)) (hst : startPgoff A node = startPgoff A prev)
    (hf : r.inorder.length ≤ fuel) :
    insertAfter A fuel s node prev = rbInsert (augment A fuel) fuel
      (rbLinkNode (s.augment (leafTable s.aug (lastPgoff A node) node (spine (leftPath r)))) node
        (linkOf (leftPath r ++ ⟨.right, c, prev, l⟩ :: K))) node := by
  obtain ⟨-, -, -, hcr, -, hr⟩ := h.tree
  have hcr' : s.child .right prev = ptr r := hcr
  unfold insertAfter
  simp only [hst, hcr', ne_eq, not_true_eq_false, if_false]
  cases r with
  | nil => simp [leftPath, linkOf, leafTable, spine, State.augment]
  | node c' l' p' r' =>
    have hne : CTree.node c' l' p' r' ≠ .nil := by simp
    have hlink : linkOf (leftPath (.node c' l' p' r') ++ ⟨.right, c, prev, l⟩ :: K) =
        Link.child .left (top (leftPath (.node c' l' p' r'))) := by
      cases hL : leftPath (.node c' l' p' r') with
      | nil => simp [leftPath] at hL
      | cons f L =>
        have hd := leftPath_dir (t := .node c' l' p' r') f (by rw [hL]; simp)
        show Link.child f.dir f.ptr = Link.child .left f.ptr
        rw [hd]
    rw [if_neg (ptr_ne_zero hr hne)]
    simp only [leftmostWalk_spec hr hne hf, Option.bind_eq_bind, Option.bind_some]
    rw [hlink]
    rfl

/-- Filling the hole puts the node right after `prev`. -/
theorem around_gap {c : Color} {l r : CTree ℕ} {node prev : ℕ}
    (hnd : (K.around (CTree.node c l prev r).inorder).Nodup) :
    Ctx.around (leftPath r ++ ⟨.right, c, prev, l⟩ :: K) [node] =
      placeBy node .right prev (K.around (CTree.node c l prev r).inorder) := by
  have hin : (CTree.node c l prev r).inorder = l.inorder ++ prev :: r.inorder := rfl
  have hsplit : K.around (CTree.node c l prev r).inorder =
      (K.before ++ l.inorder) ++ prev :: (r.inorder ++ K.after) := by
    rw [Ctx.around_eq, hin]
    simp
  rw [hsplit] at hnd ⊢
  have hp : prev ∉ K.before ++ l.inorder := fun hx =>
    (List.nodup_append.mp hnd).2.2 prev hx prev (by simp) rfl
  rw [placeBy_append node .right _ hp, Ctx.around_append, leftPath_around]
  show K.around (l.inorder ++ prev :: ([node] ++ r.inorder)) = _
  rw [Ctx.around_eq]
  simp [ord]

/-! ### The result -/

/-- The node is in its place in a well-formed tree, and the loop over any range that its interval
meets visits it. -/
def Right (A : Nodes) (root : RootCached) (seq : List ℕ) (node : ℕ) : Prop :=
  ∃ t, WellFormed A root t ∧ t.inorder = seq ∧ ∀ start last fuel lm,
    (lm = none ∨ lm = some root.rbLeftmost) → 2 * seq.length < fuel →
    ∃ visited, foreach A start last fuel root.rbRoot lm = some visited ∧
      (Meets A start last node = true → node ∈ visited)

theorem right_of_wellFormed {root : RootCached} {node : ℕ} (h : WellFormed A root t)
    (hn : node ∈ t.inorder) : Right A root t.inorder node := by
  refine ⟨t, h, rfl, fun start last fuel lm hlm hf => ⟨_, foreach_spec (searchable_of_wellFormed h) hlm hf, fun hm => ?_⟩⟩
  exact List.mem_filter.mpr ⟨hn, hm⟩

theorem placeBy_right {node prev : ℕ} {L : List ℕ} (h : prev ∈ L) : ∃ P M, L = P ++ prev :: M ∧
    placeBy node .right prev L = P ++ prev :: node :: M := by
  obtain ⟨P, M, rfl, hP⟩ := List.eq_append_cons_of_mem h
  exact ⟨P, M, rfl, by rw [placeBy_append node .right M hP]; simp [ord]⟩

/-- After the rebalancing only the table can be wrong. -/
theorem right_iff_exact {root : RootCached} {s' : State SubtreeLast} {t' : CTree ℕ} {node prev : ℕ}
    (h : WellFormed A root t) (hp : prev ∈ t.inorder)
    (hst : startPgoff A node = startPgoff A prev) (ht' : TreeOf s' t') (hrb : t'.RedBlack)
    (hin : t'.inorder = placeBy node .right prev t.inorder) (hend : s'.aug.ended = true) :
    Right A ⟨s', root.rbLeftmost⟩ (placeBy node .right prev t.inorder) node ↔
      Exact (lastPgoff A) s'.aug.last t' := by
  constructor
  · rintro ⟨t'', hw, -, -⟩
    obtain rfl := treeOf_unique hw.tree ht'
    exact hw.exact
  · intro hex
    obtain ⟨P, M, hPM, hpl⟩ := @placeBy_right node _ _ hp
    rw [← hin]
    refine right_of_wellFormed ⟨ht', hrb, ?_, hex, ?_, hend⟩ (by rw [hin, hpl]; simp)
    · have hs := h.sorted
      rw [hPM] at hs
      rw [hin, hpl]
      simp only [List.pairwise_append, List.pairwise_cons, List.mem_cons] at hs ⊢
      obtain ⟨hsP, ⟨hsp, hsM⟩, hsPM⟩ := hs
      refine ⟨hsP, ⟨?_, ?_, hsM⟩, ?_⟩
      · rintro x (rfl | hx)
        · exact hst.ge
        · exact hsp x hx
      · intro x hx
        rw [hst]
        exact hsp x hx
      · rintro x hx y (rfl | rfl | hy)
        · exact hsPM x hx y (Or.inl rfl)
        · rw [hst]
          exact hsPM x hx prev (Or.inl rfl)
        · exact hsPM x hx y (Or.inr hy)
    · show root.rbLeftmost = _
      rw [h.leftmost, hin, hpl, hPM]
      cases P <;> rfl

/-! ### The table of the new leaf -/

section

variable {a : SubtreeLast} {v prev node : ℕ} {L S : List ℕ} {c : Color} {l r : CTree ℕ}

theorem spine_nodup {K : Ctx ℕ} (h : K.ptrs.Nodup) : (spine K).Nodup := by
  induction K with
  | nil => exact List.nodup_nil
  | cons f K ih =>
    have hin : Ctx.ptrs (f :: K) = f.ptr :: (f.sib.inorder ++ Ctx.ptrs K) := rfl
    have hsp : spine (f :: K) = f.ptr :: spine K := rfl
    rw [hin, List.nodup_cons, List.mem_append, not_or, List.nodup_append'] at h
    rw [hsp, List.nodup_cons]
    exact ⟨fun hx => h.1.2 (spine_subset hx), ih h.2.2.1⟩

/-- With the rest of the path raised, the table fits the tree with the new leaf. -/
theorem keeps_fixed {K : Ctx ℕ} (hK : spine K = L ++ S) (hex : Exact (lastPgoff A) a.last (K.fill .nil))
    (hend : a.ended = true) (hnd : K.ptrs.Nodup) (hn : node ∉ K.ptrs) :
    Keeps A ((K.around [node]).length + 1)
      (fixed (leafTable a (lastPgoff A node) node L) (lastPgoff A node) S)
      (K.fill (.mk .left .red .nil node .nil)) := by
  have hnS : node ∉ S := fun h => hn (spine_subset (by rw [hK]; simp [h]))
  have hself : (fixed (leafTable a (lastPgoff A node) node L) (lastPgoff A node) S).last node =
      lastPgoff A node := by
    rw [fixed_of_notMem hnS]
    unfold leafTable
    rw [SubtreeLast.last_set_self]
  refine ⟨exact_fill.mpr ⟨exact_mk.mpr ⟨?_, trivial, trivial⟩, ?_⟩, hend, ?_⟩
  · rw [hself, maxOf_nil, Nat.max_self, Nat.max_zero]
  · have hctx := ctxExact_raise (lastPgoff A node) hnd (exact_fill.mp hex).2
    rw [maxOf_mk, maxOf_nil, Nat.max_self, Nat.max_zero]
    rw [maxOf_nil, Nat.zero_max] at hctx
    refine ctxExact_congr (fun x hx => ?_) hctx
    have hxn : x ≠ node := fun h => hn (h ▸ hx)
    show raise (leafTable a (lastPgoff A node) node L).last _ S x = raise a.last _ (spine K) x
    have hraise : ∀ b : ℕ → ℕ, b x = raise a.last (lastPgoff A node) L x →
        raise b (lastPgoff A node) S x = raise a.last (lastPgoff A node) (spine K) x := by
      intro b hb
      unfold raise at hb ⊢
      rw [hK, hb]
      by_cases h1 : x ∈ L <;> by_cases h2 : x ∈ S <;> simp [h1, h2]
    exact hraise _ (leafTable_of_ne hxn)
  · rw [Ctx.inorder_fill]
    exact Nat.lt_succ_self _

end

/-- **Linking and rebalancing** after a walk that has raised the entries of `L` only. -/
theorem rebalance_iff {node prev fuel : ℕ} {L S : List ℕ} (hat : At s K .nil)
    (hrb : (K.fill .nil).RedBlack) (hex : Exact (lastPgoff A) s.aug.last (K.fill .nil))
    (hend : s.aug.ended = true) (hsp : spine K = L ++ prev :: S) (hn : Addr node)
    (hfresh : node ∉ K.around []) (hf : K.length + 1 < fuel) :
    ∃ s' t', rbInsert (augment A fuel) fuel
        (rbLinkNode (s.augment (leafTable s.aug (lastPgoff A node) node L)) node (linkOf K)) node =
      some s' ∧ TreeOf s' t' ∧ t'.RedBlack ∧ t'.inorder = K.around [node] ∧ s'.aug.ended = true ∧
      (Exact (lastPgoff A) s'.aug.last t' ↔ lastPgoff A node ≤ s.aug.last prev ∨
        Mends s.aug.last (lastPgoff A node) prev (rotationSite K node)) := by
  have hnK : node ∉ K.ptrs := fun hx => hfresh (Ctx.mem_around.mpr (Or.inr hx))
  have hndK : K.ptrs.Nodup := (Ctx.nodup_around.mp hat.nodup).2.1
  have hkeeps := keeps_fixed hsp hex hend hndK hnK
  have hndS := spine_nodup hndK
  have hup := pairwise_spine (exact_fill.mp hex).2
  rw [hsp, List.nodup_append] at hndS
  rw [hsp, List.pairwise_append] at hup
  obtain ⟨b, hb⟩ : ∃ b, b = leafTable s.aug (lastPgoff A node) node L := ⟨_, rfl⟩
  rw [← hb] at hkeeps ⊢
  -- the path up from `prev` keeps its entries through the walk
  have hb' : ∀ x ∈ prev :: S, b.last x = s.aug.last x := by
    intro x hx
    have hxn : x ≠ node := by
      rintro rfl
      exact hnK (spine_subset (by rw [hsp]; simp only [List.mem_append, hx, or_true]))
    have hxL : x ∉ L := fun h' => hndS.2.2 x h' x hx rfl
    rw [hb, leafTable_of_ne hxn]
    simp [raise, hxL]
  by_cases hv : lastPgoff A node ≤ s.aug.last prev
  · rw [fixed_eq fun x hx => ?_] at hkeeps
    · obtain ⟨s', t', hs', ht', hrb', hin', hQ⟩ := rbInsert_hole (augment A fuel)
        (augment_upkeep A _ fuel).insertRule fuel (hat.augment b) hrb hn hfresh hkeeps hf
      exact ⟨s', t', hs', ht', hrb', hin', hQ.ended, fun _ => Or.inl hv, fun _ => hQ.exact⟩
    · rw [hb' x hx]
      rcases List.mem_cons.mp hx with rfl | hx'
      · exact hv
      · exact hv.trans ((List.pairwise_cons.mp hup.2.1).1 x hx')
  · -- only a rotation can mend the entry of `prev`
    have hlow : LowPath b (lastPgoff A node) prev (prev :: S) := by
      refine ⟨⟨_, rfl⟩, hndS.2.1, ?_, ?_⟩
      · refine hup.2.1.imp_of_mem fun {x y} hx hy hxy => ?_
        rw [hb' x hx, hb' y hy]
        exact hxy
      · rw [hb' prev List.mem_cons_self]
        omega
    have hI : Stale A ((K.around [node]).length + 1) b (lastPgoff A node) (prev :: S)
        (rotationSite K node) b K (.mk .left .red .nil node .nil) :=
      ⟨rfl, hkeeps, Or.inl ⟨_, hsp.symm⟩, by rw [ptr_mk]⟩
    obtain ⟨s', t', hs', ht', hrb', hin', hend', hiff⟩ := rbInsert_hole (augment A fuel)
      (stale_insertRule hlow) fuel (hat.augment b) hrb hn hfresh hI hf
    have hne : node ≠ prev := by
      rintro rfl
      exact hnK (spine_subset (by rw [hsp]; simp))
    rw [mends_congr hsp (spine_nodup hndK) hne fun x hx => hb' x (List.mem_cons_of_mem _ hx)] at hiff
    exact ⟨s', t', hs', ht', hrb', hin', hend', hiff.trans (or_iff_right hv).symm⟩

/-- **Insertion after a node** always returns, and the tree is right exactly under the condition. -/
theorem insertAfter_right_iff {root : RootCached} {node prev fuel : ℕ} (h : WellFormed A root t)
    (hp : prev ∈ t.inorder) (hn : Addr node) (hfresh : node ∉ t.inorder)
    (hst : startPgoff A node = startPgoff A prev) (hf : t.inorder.length + 2 ≤ fuel) :
    ∃ root', insertAfterCached A fuel root node prev = some root' ∧
      (Right A root' (placeBy node .right prev t.inorder) node ↔
        Careful A root.rbRoot.aug.last t node prev) := by
  obtain ⟨K₀, c, l, r, rfl⟩ := Ctx.exists_fill hp
  obtain ⟨K, hKdef⟩ : ∃ K, K = leftPath r ++ ⟨.right, c, prev, l⟩ :: K₀ := ⟨_, rfl⟩
  have hfill : K.fill .nil = K₀.fill (.node c l prev r) := by
    rw [hKdef, Ctx.fill_append, leftPath_fill]
    rfl
  have hsp : spine K = spine (leftPath r) ++ prev :: spine K₀ := by
    rw [hKdef]
    simp [spine]
  have hnd := h.tree.nodup
  rw [Ctx.inorder_fill] at hnd
  have hgap : gapAfter prev (K₀.fill (.node c l prev r)) [] = some K := by
    rw [gapAfter_fill hnd, hKdef, List.append_nil]
  have hin : (K₀.fill (.node c l prev r)).inorder = K.around [] := by
    rw [← hfill, Ctx.inorder_fill]
    rfl
  have hlen := Ctx.length_le_around K []
  have hr : r.inorder.length ≤ fuel := by
    rw [Ctx.inorder_fill, Ctx.length_around] at hf
    have hlen : (CTree.node c l prev r).inorder.length =
      l.inorder.length + (r.inorder.length + 1) := by simp [CTree.inorder]
    omega
  have htree : TreeOf root.rbRoot (K.fill .nil) := by
    rw [hfill]
    exact h.tree
  obtain ⟨s', t', hs', ht', hrb, hin', hend, hiff⟩ := rebalance_iff (A := A) (at_iff.mpr htree)
    (by rw [hfill]; exact h.redBlack) (by rw [hfill]; exact h.exact) h.ended hsp hn
    (by rwa [← hin]) (show K.length + 1 < fuel by rw [hin] at hf; omega)
  have hseq : t'.inorder = placeBy node .right prev (K₀.fill (.node c l prev r)).inorder := by
    rw [hin', hKdef, Ctx.inorder_fill, around_gap hnd]
  refine ⟨⟨s', root.rbLeftmost⟩, ?_, (right_iff_exact h hp hst ht' hrb hseq hend).trans
    (hiff.trans ?_)⟩
  · unfold insertAfterCached
    rw [insertAfter_eq (at_iff.mpr h.tree) hst hr, ← hKdef, hs']
    rfl
  · unfold Careful
    rw [hgap]
    simp only [Option.some.injEq, exists_eq_left']

/-- Two areas from the offset 0 on: the first has one page, the second six. -/
def twoAreas : Nodes where
  vmPgoff := fun _ => 0
  vmaPages := fun v => if v = 4 then 1 else 6
  vma := id

theorem insertAfter_right_iff_two : ∃ root t, WellFormed twoAreas root t ∧ t.inorder = [4] ∧
    ∃ root', insertAfterCached twoAreas 9 root 8 4 = some root' ∧
      (Right twoAreas root' [4, 8] 8 ↔ Careful twoAreas root.rbRoot.aug.last t 8 4) := by
  obtain ⟨root, t, -, hw, hin⟩ := intervalTreeInsert_spec (A := twoAreas) 4 9
    (start_holds twoAreas zeroMemory).wellFormed ⟨by decide, by decide⟩ (by simp) (by simp)
  have hs : t.inorder = [4] := hin
  refine ⟨root, t, hw, hs, ?_⟩
  have h := @insertAfter_right_iff _ _ _ 8 4 9 hw (by rw [hs]; decide)
    ⟨by decide, by decide⟩ (by rw [hs]; decide) rfl (by rw [hs]; decide)
  rw [hs] at h
  exact h

/-- After the call with the longer area, the loop over the page 3 visits nothing. -/
theorem insertAfter_misses : ∃ root t root', WellFormed twoAreas root t ∧ t.inorder = [4] ∧
    startPgoff twoAreas 8 = startPgoff twoAreas 4 ∧
    insertAfterCached twoAreas 9 root 8 4 = some root' ∧ ¬ Right twoAreas root' [4, 8] 8 := by
  obtain ⟨root, t, hroot, hw, hin⟩ := intervalTreeInsert_spec (A := twoAreas) 4 9
    (start_holds twoAreas zeroMemory).wellFormed ⟨by decide, by decide⟩ (by simp) (by simp)
  have hrun : ((intervalTreeInsert twoAreas 9 (RB_ROOT_CACHED zeroMemory) 4).bind fun root =>
      (insertAfterCached twoAreas 9 root 8 4).bind fun root' =>
        foreach twoAreas 3 3 9 root'.rbRoot none) = some [] := by decide +kernel
  rw [hroot, Option.bind_some] at hrun
  obtain ⟨root', hroot', hvisit⟩ := Option.bind_eq_some_iff.mp hrun
  refine ⟨root, t, root', hw, hin, rfl, hroot', ?_⟩
  rintro ⟨-, -, -, hright⟩
  obtain ⟨visited, hv, hmem⟩ := hright 3 3 9 none (Or.inl rfl) (by decide)
  obtain rfl := Option.some.inj (hvisit.symm.trans hv)
  have hm : Meets twoAreas 3 3 8 = true := by decide +kernel
  exact absurd (hmem hm) List.not_mem_nil

end HardStack.IntervalTree.InsertAfter
