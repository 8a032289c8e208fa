import HardStack.Lib.RbTree

/-! # The orders of a tree

The postorder sequence beside the in-order one, the sequence after a hole in it, and the mirror image
of a tree. -/

namespace HardStack.Lib.RbTree

variable {α : Type*}

namespace CTree

/-- Both subtrees before the node. -/
def postorder : CTree α → List α
  | nil => []
  | node _ l p r => l.postorder ++ (r.postorder ++ [p])

theorem postorder_perm : ∀ t : CTree α, t.postorder.Perm t.inorder
  | nil => List.Perm.refl _
  | node _ l p r => (postorder_perm l).append
      ((List.perm_append_singleton p r.postorder).trans ((postorder_perm r).cons p))

theorem postorder_ne_nil {t : CTree α} (h : t ≠ nil) : t.postorder ≠ [] := by
  cases t with
  | nil => exact absurd rfl h
  | node c l p r => simp [postorder]

/-- The mirror image. -/
def mirror : CTree α → CTree α
  | nil => nil
  | node c l p r => node c r.mirror p l.mirror

theorem inorder_mirror : ∀ t : CTree α, t.mirror.inorder = t.inorder.reverse
  | nil => rfl
  | node _ l p r => by
    rw [mirror, inorder, inorder, inorder_mirror l, inorder_mirror r, List.reverse_append,
      List.reverse_cons, List.append_assoc]
    rfl

end CTree

namespace Ctx

/-- The postorder sequence before the hole. -/
def postBefore : Ctx α → List α
  | [] => []
  | f :: K => postBefore K ++ match f.dir with
    | .left => []
    | .right => f.sib.postorder

/-- The postorder sequence after the hole. -/
def postAfter : Ctx α → List α
  | [] => []
  | f :: K => match f.dir with
    | .left => f.sib.postorder ++ f.ptr :: postAfter K
    | .right => f.ptr :: postAfter K

theorem postorder_fill : ∀ (K : Ctx α) (t : CTree α),
    (K.fill t).postorder = K.postBefore ++ (t.postorder ++ K.postAfter)
  | [], t => by simp [fill, postBefore, postAfter]
  | f :: K, t => by
    rw [fill, postorder_fill K]
    cases hd : f.dir <;> simp [postBefore, postAfter, hd, CTree.mk, CTree.postorder]

end Ctx

/-- `a` stands before `b`. -/
def Before (L : List α) (a b : α) : Prop := ∃ A B C, L = A ++ a :: (B ++ b :: C)

theorem Before.append {L : List α} {a b : α} (h : Before L a b) (A C : List α) :
    Before (A ++ (L ++ C)) a b := by
  obtain ⟨A', B, C', rfl⟩ := h
  exact ⟨A ++ A', B, C' ++ C, by simp⟩

theorem before_of_mem {A B C : List α} {a b : α} (h : a ∈ A) : Before (A ++ (B ++ b :: C)) a b := by
  obtain ⟨A₁, A₂, rfl⟩ := List.append_of_mem h
  exact ⟨A₁, A₂ ++ B, C, by simp⟩

/-! ### Relabelling -/

/-- `new` in the place of `old`. -/
def relabel [DecidableEq α] (old new x : α) : α := if x = old then new else x

theorem map_relabel [DecidableEq α] {A B : List α} {old : α} (new : α)
    (h : (A ++ old :: B).Nodup) : (A ++ old :: B).map (relabel old new) = A ++ new :: B := by
  have hA : old ∉ A := fun hx => (List.nodup_append.mp h).2.2 old hx old (by simp) rfl
  have hB : old ∉ B := (List.nodup_cons.mp (List.nodup_append.mp h).2.1).1
  have hid : ∀ L : List α, old ∉ L → L.map (relabel old new) = L := by
    intro L hL
    refine (List.map_congr_left fun x hx => ?_).trans (List.map_id L)
    exact if_neg (by rintro rfl; exact hL hx)
  rw [List.map_append, List.map_cons, hid A hA, hid B hB]
  congr 2
  exact if_pos rfl

end HardStack.Lib.RbTree
