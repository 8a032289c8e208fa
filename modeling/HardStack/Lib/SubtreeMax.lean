import HardStack.Lib.RbTree

/-! # A maximum kept at every node

A search tree whose nodes carry a number `f` may keep at every node the greatest number of its
subtree, in a table `a`. `Exact f a t` says that the table is right for the tree, `CtxExact` says so
for a context, given the maximum of the hole. A rotation writes the table at the two nodes it turns
(`Exact.rotate`); a change below a context is carried up by `refresh`, which stops at the first node
whose entry is right already (`ctxExact_refresh`), or announced on the way down by `raise`. -/

namespace HardStack.Lib.SubtreeMax

open HardStack.Lib.RbTree

variable {α : Type*} {f a b : α → ℕ} {t : CTree α} {K : Ctx α} {d : Dir} {c : Color} {p : α} {m : ℕ}

/-- The greatest number of a tree, `0` for the empty one. -/
def maxOf (f : α → ℕ) : CTree α → ℕ
  | .nil => 0
  | .node _ l p r => max (f p) (max (maxOf f l) (maxOf f r))

/-- At every node `a` is the greatest number of the subtree. -/
def Exact (f a : α → ℕ) : CTree α → Prop
  | .nil => True
  | .node c l p r => a p = maxOf f (.node c l p r) ∧ Exact f a l ∧ Exact f a r

/-- The same for the nodes of a context around a hole with the greatest number `m`. -/
def CtxExact (f a : α → ℕ) : Ctx α → ℕ → Prop
  | [], _ => True
  | g :: K, m => a g.ptr = max (f g.ptr) (max m (maxOf f g.sib)) ∧ Exact f a g.sib ∧
      CtxExact f a K (max (f g.ptr) (max m (maxOf f g.sib)))

@[simp] theorem maxOf_nil : maxOf f .nil = 0 := rfl

@[simp] theorem maxOf_mk {x y : CTree α} :
    maxOf f (.mk d c x p y) = max (f p) (max (maxOf f x) (maxOf f y)) := by
  cases d
  · rfl
  · exact congrArg (max (f p)) (max_comm _ _)

@[simp] theorem maxOf_paint : maxOf f (t.paint c) = maxOf f t := by cases t <;> rfl

@[simp] theorem exact_nil : Exact f a .nil := trivial

theorem exact_mk {x y : CTree α} : Exact f a (.mk d c x p y) ↔
    a p = max (f p) (max (maxOf f x) (maxOf f y)) ∧ Exact f a x ∧ Exact f a y := by
  cases d
  · exact Iff.rfl
  · rw [max_comm (maxOf f x)]
    exact and_congr_right fun _ => and_comm

@[simp] theorem exact_paint : Exact f a (t.paint c) ↔ Exact f a t := by cases t <;> exact Iff.rfl

theorem le_maxOf : ∀ {t : CTree α} {x : α}, x ∈ t.inorder → f x ≤ maxOf f t
  | .node c l p r, x, hx => by
    have hx' : x ∈ l.inorder ++ p :: r.inorder := hx
    show f x ≤ max (f p) (max (maxOf f l) (maxOf f r))
    rw [List.mem_append, List.mem_cons] at hx'
    rcases hx' with hx | rfl | hx
    · have := le_maxOf hx; omega
    · omega
    · have := le_maxOf hx; omega

theorem exists_eq_maxOf : ∀ {t : CTree α}, t ≠ .nil → ∃ x ∈ t.inorder, f x = maxOf f t
  | .node c l p r, _ => by
    show ∃ x ∈ l.inorder ++ p :: r.inorder, f x = max (f p) (max (maxOf f l) (maxOf f r))
    by_cases hp : max (maxOf f l) (maxOf f r) ≤ f p
    · exact ⟨p, by simp, by omega⟩
    · by_cases hlr : maxOf f r ≤ maxOf f l
      · obtain ⟨x, hx, hfx⟩ := exists_eq_maxOf (t := l) (by rintro rfl; simp at hp hlr; omega)
        exact ⟨x, by simp [hx], by omega⟩
      · obtain ⟨x, hx, hfx⟩ := exists_eq_maxOf (t := r) (by rintro rfl; simp at hlr)
        exact ⟨x, by simp [hx], by omega⟩

/-- **Frame.** The table is read at the nodes of the tree only. -/
theorem exact_congr : ∀ {t : CTree α}, (∀ x ∈ t.inorder, b x = a x) → Exact f a t → Exact f b t
  | .nil, _, _ => trivial
  | .node c l p r, h, ⟨hp, hl, hr⟩ => by
    have hin : (CTree.node c l p r).inorder = l.inorder ++ p :: r.inorder := rfl
    rw [hin] at h
    exact ⟨(h p (by simp)).trans hp, exact_congr (fun x hx => h x (by simp [hx])) hl,
      exact_congr (fun x hx => h x (by simp [hx])) hr⟩

theorem ctxExact_congr : ∀ {K : Ctx α} {m : ℕ}, (∀ x ∈ K.ptrs, b x = a x) → CtxExact f a K m →
    CtxExact f b K m
  | [], _, _, _ => trivial
  | g :: K, m, h, ⟨hp, hs, hK⟩ => by
    have hin : Ctx.ptrs (g :: K) = g.ptr :: (g.sib.inorder ++ Ctx.ptrs K) := rfl
    rw [hin] at h
    exact ⟨(h g.ptr (by simp)).trans hp, exact_congr (fun x hx => h x (by simp [hx])) hs,
      ctxExact_congr (fun x hx => h x (by simp [hx])) hK⟩

/-- There is one right table. -/
theorem exact_unique : ∀ {t : CTree α}, Exact f a t → Exact f b t → ∀ x ∈ t.inorder, a x = b x
  | .node c l p r, ⟨hp, hl, hr⟩, ⟨hp', hl', hr'⟩, x, hx => by
    have hx' : x ∈ l.inorder ++ p :: r.inorder := hx
    rw [List.mem_append, List.mem_cons] at hx'
    rcases hx' with hx | rfl | hx
    · exact exact_unique hl hl' x hx
    · exact hp.trans hp'.symm
    · exact exact_unique hr hr' x hx

/-- **A tree from one of its nodes.** -/
theorem exact_fill : ∀ {K : Ctx α} {t : CTree α},
    Exact f a (K.fill t) ↔ Exact f a t ∧ CtxExact f a K (maxOf f t)
  | [], t => by simp [Ctx.fill, CtxExact]
  | g :: K, t => by
    show Exact f a (Ctx.fill K (.mk g.dir g.color t g.ptr g.sib)) ↔ _ ∧ _ ∧ _ ∧ _
    rw [exact_fill, exact_mk, maxOf_mk]
    tauto

theorem exact_sib {g : Frame α} : ∀ {K : Ctx α} {m : ℕ}, CtxExact f a K m → g ∈ K → Exact f a g.sib
  | _ :: _, _, ⟨_, hs, hK⟩, hg => by
    rcases List.mem_cons.mp hg with rfl | hg
    · exact hs
    · exact exact_sib hK hg

/-! ### Rotations -/

/-- What a rotation writes: the new upper node takes the entry over, the lower one, with the children
`x` and `y`, gets a new one. -/
def rotated [DecidableEq α] (f a : α → ℕ) (g p : α) (x y : CTree α) : α → ℕ :=
  Function.update (Function.update a p (a g)) g (max (f g) (max (maxOf f x) (maxOf f y)))

theorem Exact.rotate [DecidableEq α] {c₁ c₂ c₃ c₄ : Color} {N B U : CTree α} {g : α}
    (hnd : (K.fill (.mk d c₁ (.mk d c₂ N p B) g U)).inorder.Nodup)
    (h : Exact f a (K.fill (.mk d c₁ (.mk d c₂ N p B) g U))) :
    Exact f (rotated f a g p B U) (K.fill (.mk d c₃ N p (.mk d c₄ B g U))) := by
  rw [Ctx.inorder_fill, Ctx.nodup_around] at hnd
  simp only [CTree.inorder_mk, nodup_ord, mem_ord, not_or, List.Disjoint] at hnd
  obtain ⟨⟨⟨hgp, hgN, hgB⟩, hgU, ⟨hpN, hpB, -, -, -⟩, -, hdU⟩, -, hK⟩ := hnd
  have hpU : p ∉ U.inorder := fun hx => hdU (Or.inl rfl) hx
  obtain ⟨ht, hctx⟩ := exact_fill.mp h
  obtain ⟨hg, hNB, hU⟩ := exact_mk.mp ht
  obtain ⟨-, hN, hB⟩ := exact_mk.mp hNB
  have hoff : ∀ x, x ≠ g → x ≠ p → rotated f a g p B U x = a x := by
    intro x hx hx'
    unfold rotated
    rw [Function.update_of_ne hx, Function.update_of_ne hx']
  rw [maxOf_mk, maxOf_mk] at hctx
  rw [maxOf_mk] at hg
  refine exact_fill.mpr ⟨exact_mk.mpr ⟨?_, ?_, exact_mk.mpr ⟨?_, ?_, ?_⟩⟩, ?_⟩
  · unfold rotated
    rw [Function.update_of_ne (Ne.symm hgp), Function.update_self, hg, maxOf_mk]
    omega
  · exact exact_congr (fun x hx => hoff x (fun h => hgN (h ▸ hx)) (fun h => hpN (h ▸ hx))) hN
  · unfold rotated
    rw [Function.update_self]
  · exact exact_congr (fun x hx => hoff x (fun h => hgB (h ▸ hx)) (fun h => hpB (h ▸ hx))) hB
  · exact exact_congr (fun x hx => hoff x (fun h => hgU (h ▸ hx)) (fun h => hpU (h ▸ hx))) hU
  · rw [maxOf_mk, maxOf_mk]
    rw [show max (f p) (max (maxOf f N) (max (f g) (max (maxOf f B) (maxOf f U)))) =
      max (f g) (max (max (f p) (max (maxOf f N) (maxOf f B))) (maxOf f U)) by omega]
    refine ctxExact_congr (fun x hx => hoff x ?_ ?_) hctx
    · rintro rfl; exact hK (Or.inl rfl) hx
    · rintro rfl; exact hK (Or.inr (Or.inl (Or.inl rfl))) hx

/-! ### Changes below a context -/

/-- Recompute the entries from the hole upwards, until one is right already. -/
def refresh [DecidableEq α] (f : α → ℕ) : (α → ℕ) → Ctx α → ℕ → α → ℕ
  | a, [], _ => a
  | a, g :: K, m =>
    let v := max (f g.ptr) (max m (maxOf f g.sib))
    if a g.ptr = v then a else refresh f (Function.update a g.ptr v) K v

theorem refresh_of_notMem [DecidableEq α] : ∀ {K : Ctx α} {a : α → ℕ} {m : ℕ} {x : α},
    (∀ g ∈ K, x ≠ g.ptr) → refresh f a K m x = a x
  | [], _, _, _, _ => rfl
  | g :: K, a, m, x, h => by
    unfold refresh
    simp only
    split_ifs
    · rfl
    · rw [refresh_of_notMem fun g hg => h g (by simp [hg]),
        Function.update_of_ne (h g (by simp))]

theorem ptr_mem_ptrs {g : Frame α} : ∀ {K : Ctx α}, g ∈ K → g.ptr ∈ K.ptrs
  | k :: K, h => by
    show g.ptr ∈ k.ptr :: (k.sib.inorder ++ Ctx.ptrs K)
    rcases List.mem_cons.mp h with rfl | h
    · simp
    · simp [ptr_mem_ptrs h]

theorem sib_mem_ptrs {g : Frame α} {x : α} : ∀ {K : Ctx α}, g ∈ K → x ∈ g.sib.inorder → x ∈ K.ptrs
  | k :: K, h, hx => by
    show x ∈ k.ptr :: (k.sib.inorder ++ Ctx.ptrs K)
    rcases List.mem_cons.mp h with rfl | h
    · simp [hx]
    · simp [sib_mem_ptrs h hx]

/-- **Stopping early is right**: above a node whose entry does not change nothing changes. -/
theorem ctxExact_refresh [DecidableEq α] : ∀ {K : Ctx α} {g : Frame α} {a : α → ℕ} (m : ℕ),
    (Ctx.ptrs (g :: K)).Nodup → Exact f a g.sib → CtxExact f a K (a g.ptr) →
    CtxExact f (refresh f a (g :: K) m) (g :: K) m
  | K, g, a, m, hnd, hs, hK => by
    have hin : Ctx.ptrs (g :: K) = g.ptr :: (g.sib.inorder ++ Ctx.ptrs K) := rfl
    rw [hin, List.nodup_cons, List.mem_append, not_or, List.nodup_append'] at hnd
    obtain ⟨⟨hgs, hgK⟩, -, hndK, hdis⟩ := hnd
    unfold refresh
    simp only
    set v := max (f g.ptr) (max m (maxOf f g.sib)) with hv
    split_ifs with heq
    · exact ⟨heq, hs, by rw [← hv, ← heq]; exact hK⟩
    · set a' := Function.update a g.ptr v with ha'
      have hoff : ∀ x, x ≠ g.ptr → a' x = a x := fun x hx => Function.update_of_ne hx v a
      have hK' : CtxExact f a' K (a g.ptr) :=
        ctxExact_congr (fun x hx => hoff x (fun h => hgK (h ▸ hx))) hK
      have hup : CtxExact f (refresh f a' K v) K v := by
        cases K with
        | nil => trivial
        | cons k K =>
          obtain ⟨hk, hks, hkK⟩ := hK'
          exact ctxExact_refresh v hndK hks (by rw [hk]; exact hkK)
      have hback : ∀ x, x ∉ Ctx.ptrs K → refresh f a' K v x = a' x := fun x hx =>
        refresh_of_notMem fun k hk h => hx (h ▸ ptr_mem_ptrs hk)
      refine ⟨?_, ?_, hup⟩
      · rw [hback _ hgK, ha', Function.update_self]
      · refine exact_congr (fun x hx => ?_) hs
        rw [hback x (fun h => hdis hx h), hoff x (fun h => hgs (h ▸ hx))]

/-- The table with the entries of the nodes `L` raised to `v` at least. -/
def raise [DecidableEq α] (a : α → ℕ) (v : ℕ) (L : List α) (x : α) : ℕ :=
  if x ∈ L then max (a x) v else a x

@[simp] theorem raise_nil [DecidableEq α] (a : α → ℕ) (v : ℕ) : raise a v [] = a := by
  funext x
  simp [raise]

theorem raise_raise [DecidableEq α] (a : α → ℕ) (v : ℕ) (L M : List α) :
    raise (raise a v L) v M = raise a v (M ++ L) := by
  funext x
  unfold raise
  by_cases hM : x ∈ M <;> by_cases hL : x ∈ L <;> simp [hM, hL]

/-- The nodes above the hole. -/
def spine (K : Ctx α) : List α := K.map Frame.ptr

theorem spine_subset {K : Ctx α} {x : α} (h : x ∈ spine K) : x ∈ K.ptrs := by
  obtain ⟨g, hg, rfl⟩ := List.mem_map.mp h
  exact ptr_mem_ptrs hg

/-- The entries do not decrease on the way up. -/
theorem le_of_ctxExact : ∀ {K : Ctx α} {m : ℕ}, CtxExact f a K m → ∀ x ∈ spine K, m ≤ a x
  | g :: K, m, ⟨hp, _, hK⟩, x, hx => by
    rcases List.mem_cons.mp hx with rfl | hx
    · omega
    · have := le_of_ctxExact hK x hx
      omega

theorem pairwise_spine : ∀ {K : Ctx α} {m : ℕ}, CtxExact f a K m →
    (spine K).Pairwise fun x y => a x ≤ a y
  | [], _, _ => List.Pairwise.nil
  | g :: K, m, ⟨hp, _, hK⟩ =>
    List.pairwise_cons.mpr ⟨fun x hx => by rw [hp]; exact le_of_ctxExact hK x hx, pairwise_spine hK⟩

/-- **Announcing a number** `v` at all nodes above the hole. -/
theorem ctxExact_raise [DecidableEq α] (v : ℕ) : ∀ {K : Ctx α} {m : ℕ}, K.ptrs.Nodup →
    CtxExact f a K m → CtxExact f (raise a v (spine K)) K (max m v)
  | [], _, _, _ => trivial
  | g :: K, m, hnd, ⟨hp, hs, hK⟩ => by
    have hin : Ctx.ptrs (g :: K) = g.ptr :: (g.sib.inorder ++ Ctx.ptrs K) := rfl
    rw [hin, List.nodup_cons, List.mem_append, not_or, List.nodup_append'] at hnd
    obtain ⟨⟨hgs, hgK⟩, -, hndK, hdis⟩ := hnd
    have hsp : spine (g :: K) = g.ptr :: spine K := rfl
    refine ⟨?_, exact_congr (fun x hx => ?_) hs, ?_⟩
    · unfold raise
      rw [hsp, if_pos List.mem_cons_self, hp]
      omega
    · unfold raise
      rw [if_neg]
      rw [hsp, List.mem_cons, not_or]
      exact ⟨fun h => hgs (h ▸ hx), fun h => hdis hx (spine_subset h)⟩
    · have hup := ctxExact_raise v hndK hK
      rw [show max (f g.ptr) (max (max m v) (maxOf f g.sib)) =
        max (max (f g.ptr) (max m (maxOf f g.sib))) v by omega]
      refine ctxExact_congr (fun x hx => ?_) hup
      have hxg : x ≠ g.ptr := fun h => hgK (h ▸ hx)
      unfold raise
      simp only [hsp, List.mem_cons, hxg, false_or]

end HardStack.Lib.SubtreeMax
