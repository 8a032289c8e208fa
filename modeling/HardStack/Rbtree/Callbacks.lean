import HardStack.Rbtree.Layout

/-! # What the callbacks keep

A client of the tree keeps data of its own beside it, and the callbacks are its only chance to repair
the data while the tree changes. `Upkeep cb J` says that the rotations keep the relation `J` between
the data and the tree. `InsertRule` is the finer rule for the loop of `__rb_insert`, with an invariant
that knows the place the loop is at; `EraseRule` adds what the callbacks have to do while a node is
taken out. -/

namespace HardStack.Rbtree.Callbacks

open HardStack.Lib.RbTree HardStack.Rbtree.Model HardStack.Rbtree.Layout

variable {α : Type} {s : State α} {K : Ctx ℕ} {t : CTree ℕ} {cb : AugmentCallbacks α}
  {J : α → CTree ℕ → Prop}

/-- No node is `NULL`, and none stands twice. -/
structure Proper (t : CTree ℕ) : Prop where
  nodup : t.inorder.Nodup
  ne_zero : ∀ x ∈ t.inorder, x ≠ 0

theorem proper_of_treeOf (h : TreeOf s t) : Proper t :=
  ⟨h.nodup, fun _ hx => (addr_of_mem h.tree hx).1⟩

theorem proper_of_at (h : At s K t) : Proper (K.fill t) := proper_of_treeOf (at_iff.mp h)

/-- The data after the callback of a rotation that puts `g`, with the children `B` and `U`, below
`p`. -/
def RotatedData (cb : AugmentCallbacks α) (a : α) (d : Dir) (g p : ℕ) (B U : CTree ℕ) (a' : α) :
    Prop :=
  ∃ s : State α, a' = cb.rotate s g p ∧ s.aug = a ∧ s.child d g = ptr B ∧ s.child d.flip g = ptr U

/-- **The rotations keep `J`**, which does not look at colours. -/
structure Upkeep (cb : AugmentCallbacks α) (J : α → CTree ℕ → Prop) : Prop where
  paint : ∀ {a : α} {K : Ctx ℕ} {t : CTree ℕ} (c : Color), J a (K.fill t) →
    J a (K.fill (t.paint c))
  rotate : ∀ {a a' : α} {K : Ctx ℕ} {d : Dir} {c₁ c₂ c₃ c₄ : Color} {N B U : CTree ℕ} {p g : ℕ},
    Proper (K.fill (.mk d c₁ (.mk d c₂ N p B) g U)) → RotatedData cb a d g p B U a' →
    J a (K.fill (.mk d c₁ (.mk d c₂ N p B) g U)) →
    J a' (K.fill (.mk d c₃ N p (.mk d c₄ B g U)))

/-- **The rule for the insertion loop**: `I` holds of the data, the context and the red tree in its
hole at every round, `Q` of the data and the tree that the loop ends with. -/
structure InsertRule (cb : AugmentCallbacks α) (I : α → Ctx ℕ → CTree ℕ → Prop)
    (Q : α → CTree ℕ → Prop) : Prop where
  root : ∀ {a : α} {T : CTree ℕ}, I a [] T → Q a (T.paint .black)
  black : ∀ {a : α} {f : Frame ℕ} {K : Ctx ℕ} {T : CTree ℕ}, f.color = .black → I a (f :: K) T →
    Q a (Ctx.fill (f :: K) T)
  flip : ∀ {a : α} {f g : Frame ℕ} {K : Ctx ℕ} {T : CTree ℕ}, f.color = .red → g.sib.color = .red →
    I a (f :: g :: K) T →
    I a K (.mk g.dir .red (.mk f.dir .black T f.ptr f.sib) g.ptr (g.sib.paint .black))
  outer : ∀ {a a' : α} {d : Dir} {N B U : CTree ℕ} {p g : ℕ} {K : Ctx ℕ}, U.color = .black →
    Proper (Ctx.fill (⟨d, .red, p, B⟩ :: ⟨d, .black, g, U⟩ :: K) N) →
    RotatedData cb a d g p B U a' → I a (⟨d, .red, p, B⟩ :: ⟨d, .black, g, U⟩ :: K) N →
    Q a' (K.fill (.mk d .black N p (.mk d .red B g U)))
  inner : ∀ {a b a' : α} {d : Dir} {A X Y U : CTree ℕ} {n p g : ℕ} {K : Ctx ℕ}, U.color = .black →
    Proper (Ctx.fill (⟨d.flip, .red, p, A⟩ :: ⟨d, .black, g, U⟩ :: K) (.mk d .red X n Y)) →
    RotatedData cb a d.flip p n X A b → RotatedData cb b d g n Y U a' →
    I a (⟨d.flip, .red, p, A⟩ :: ⟨d, .black, g, U⟩ :: K) (.mk d .red X n Y) →
    Q a' (K.fill (.mk d .black (.mk d .red A p X) n (.mk d .red Y g U)))

theorem mk_flip (d : Dir) (c : Color) (a b : CTree ℕ) (p : ℕ) :
    CTree.mk d.flip c a p b = .mk d c b p a := by cases d <;> rfl

/-- A node's subtree in the hole, as the child of the node in a longer context. -/
theorem fill_mk (d : Dir) (c : Color) (a b : CTree ℕ) (p : ℕ) :
    K.fill (.mk d c a p b) = Ctx.fill (⟨d, c, p, b⟩ :: K) a := rfl

theorem Upkeep.paint_root (h : Upkeep cb J) {a : α} {d : Dir} {c : Color} {x y : CTree ℕ} {p : ℕ}
    (c' : Color) (hJ : J a (K.fill (.mk d c x p y))) : J a (K.fill (.mk d c' x p y)) := by
  rw [← CTree.mk_paint c' (c := c)]
  exact h.paint c' hJ

theorem Upkeep.paint_other (h : Upkeep cb J) {a : α} {d : Dir} {c : Color} {N S : CTree ℕ} {p : ℕ}
    (c' : Color) (hJ : J a (K.fill (.mk d c N p S))) :
    J a (K.fill (.mk d c N p (S.paint c'))) := by
  rw [← mk_flip, fill_mk] at hJ ⊢
  exact h.paint c' hJ

/-- A rotation that brings up the other child. -/
theorem Upkeep.rotate_flip (h : Upkeep cb J) {a a' : α} {d : Dir} {c₁ c₂ c₃ c₄ : Color}
    {N A C : CTree ℕ} {p q : ℕ} (hP : Proper (K.fill (.mk d c₁ N p (.mk d c₂ A q C))))
    (hr : RotatedData cb a d.flip p q A N a') (hJ : J a (K.fill (.mk d c₁ N p (.mk d c₂ A q C)))) :
    J a' (K.fill (.mk d c₃ (.mk d c₄ N p A) q C)) := by
  rw [← mk_flip d c₁, ← mk_flip d c₂] at hP hJ
  rw [← mk_flip d c₃, ← mk_flip d c₄]
  exact h.rotate hP hr hJ

/-- An inner and an outer rotation, one after the other. -/
theorem Upkeep.rotate_inner (h : Upkeep cb J) {a b a' : α} {d : Dir} {c₁ c₂ c₃ c₄ c₅ c₆ : Color}
    {A X Y U : CTree ℕ} {n p g : ℕ}
    (hP : Proper (K.fill (.mk d c₁ (.mk d c₂ A p (.mk d c₃ X n Y)) g U)))
    (h1 : RotatedData cb a d.flip p n X A b) (h2 : RotatedData cb b d g n Y U a')
    (hJ : J a (K.fill (.mk d c₁ (.mk d c₂ A p (.mk d c₃ X n Y)) g U))) :
    J a' (K.fill (.mk d c₄ (.mk d c₅ A p X) n (.mk d c₆ Y g U))) := by
  have hP' : Proper (K.fill (.mk d c₁ (.mk d c₂ (.mk d c₅ A p X) n Y) g U)) := by
    have hin : (K.fill (.mk d c₁ (.mk d c₂ (.mk d c₅ A p X) n Y) g U)).inorder =
        (K.fill (.mk d c₁ (.mk d c₂ A p (.mk d c₃ X n Y)) g U)).inorder := by
      rw [Ctx.inorder_fill, Ctx.inorder_fill]
      congr 1
      cases d <;> simp [ord]
    exact ⟨hin ▸ hP.nodup, hin ▸ hP.ne_zero⟩
  have hmid : J b (K.fill (.mk d c₁ (.mk d c₂ (.mk d c₅ A p X) n Y) g U)) := by
    rw [fill_mk, ← mk_flip d c₂, ← mk_flip d c₃ Y] at hP hJ
    rw [fill_mk, ← mk_flip d c₂, ← mk_flip d c₅ X]
    exact h.rotate hP h1 hJ
  exact h.rotate hP' h2 hmid

/-- The same for the other child. -/
theorem Upkeep.rotate_inner_flip (h : Upkeep cb J) {a b a' : α} {d : Dir}
    {c₁ c₂ c₃ c₄ c₅ c₆ : Color} {N X Y C : CTree ℕ} {p q m : ℕ}
    (hP : Proper (K.fill (.mk d c₁ N p (.mk d c₂ (.mk d c₃ X m Y) q C))))
    (h1 : RotatedData cb a d q m Y C b) (h2 : RotatedData cb b d.flip p m X N a')
    (hJ : J a (K.fill (.mk d c₁ N p (.mk d c₂ (.mk d c₃ X m Y) q C)))) :
    J a' (K.fill (.mk d c₄ (.mk d c₅ N p X) m (.mk d c₆ Y q C))) := by
  rw [← Dir.flip_flip d] at h1
  rw [← mk_flip d c₁, ← mk_flip d c₂, ← mk_flip d c₃] at hP hJ
  rw [← mk_flip d c₄, ← mk_flip d c₅, ← mk_flip d c₆]
  exact h.rotate_inner hP h1 h2 hJ

/-- The loop keeps what the rotations keep. -/
theorem Upkeep.insertRule (h : Upkeep cb J) : InsertRule cb (fun a K T => J a (K.fill T)) J where
  root hI := h.paint (K := []) .black hI
  black _ hI := hI
  flip := by
    intro a f g K T _ _ hI
    have h1 : J a (K.fill (.mk g.dir .red (.mk f.dir f.color T f.ptr f.sib) g.ptr g.sib)) :=
      h.paint_root .red (c := g.color) hI
    have h2 := h.paint_root (K := ⟨g.dir, .red, g.ptr, g.sib⟩ :: K) .black h1
    exact h.paint_other .black h2
  outer _ hP hr hI := h.rotate hP hr hI
  inner := by
    intro a b a' d A X Y U n p g K _ hP h1 h2 hI
    rw [← fill_mk, mk_flip, ← fill_mk] at hP hI
    exact h.rotate_inner hP h1 h2 hI

/-- **The rule for taking a node out.** `lift`: the node had at most one child. `splice`: its
successor takes its place, from the top of the right subtree or, with `spliceDeep`, from below it. -/
structure EraseRule (cb : AugmentCallbacks α) (J : α → CTree ℕ → Prop) : Prop extends Upkeep cb J where
  lift : ∀ {s : State α} {K : Ctx ℕ} {d : Dir} {c : Color} {n : ℕ} {X X' : CTree ℕ},
    At s K X' → (∃ c', X' = X.paint c') → J s.aug (K.fill (.mk d c .nil n X)) →
    J (cb.propagate s (top K) 0) (K.fill X')
  splice : ∀ {s s₁ s₂ : State α} {K : Ctx ℕ} {c cs c' : Color} {l C : CTree ℕ} {n m : ℕ},
    At s K (.mk .left c l n (.mk .left cs .nil m C)) → s₁.aug = s.aug → s₂.aug = cb.copy s₁ n m →
    At s₂ K (.mk .left c l m (C.paint c')) →
    J s.aug (K.fill (.mk .left c l n (.mk .left cs .nil m C))) →
    J (cb.propagate s₂ m 0) (K.fill (.mk .left c l m (C.paint c')))
  spliceDeep : ∀ {s s₁ s₂ : State α} {z : Frame ℕ} {Z K : Ctx ℕ} {c cs c' : Color} {l r C : CTree ℕ}
    {n m : ℕ}, r = Ctx.fill (z :: Z) (.mk .left cs .nil m C) → (∀ f ∈ z :: Z, f.dir = .left) →
    At s K (.mk .left c l n r) →
    s₁ = ((s.setChild .left z.ptr (ptr C)).setChild .right m (ptr r)).rbSetParent (ptr r) m →
    s₂.aug = cb.propagate (s₁.augment (cb.copy s₁ n m)) z.ptr m →
    At s₂ K (.mk .left c l m (Ctx.fill (z :: Z) (C.paint c'))) →
    J s.aug (K.fill (.mk .left c l n r)) →
    J (cb.propagate s₂ m 0) (K.fill (.mk .left c l m (Ctx.fill (z :: Z) (C.paint c'))))

theorem eraseRule_true (cb : AugmentCallbacks α) : EraseRule cb (fun _ _ => True) :=
  ⟨⟨fun _ _ => trivial, fun _ _ _ => trivial⟩, fun _ _ _ => trivial, fun _ _ _ _ _ => trivial,
    fun _ _ _ _ _ _ _ => trivial⟩

end HardStack.Rbtree.Callbacks
