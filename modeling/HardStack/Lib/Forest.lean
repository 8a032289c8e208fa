import Mathlib.Data.List.Basic

/-! # Ordered forests

A forest is a sequence of trees; each of its trees is a root with the forest of its children. The
postorder sequence has the children of a node before the node, from the left to the right. -/

namespace HardStack.Lib.Forest

/-- An ordered forest, first tree first. -/
inductive Forest (α : Type*)
  | nil
  | cons (root : α) (children rest : Forest α)

namespace Forest

variable {α : Type*} {x : α}

/-- The roots of the trees. -/
def roots : Forest α → List α
  | nil => []
  | cons p _ r => p :: r.roots

def postorder : Forest α → List α
  | nil => []
  | cons p c r => c.postorder ++ p :: r.postorder

/-- All nodes, each before its children. -/
def nodes : Forest α → List α
  | nil => []
  | cons p c r => p :: (c.nodes ++ r.nodes)

theorem postorder_perm : ∀ f : Forest α, f.postorder.Perm f.nodes
  | nil => List.Perm.refl _
  | cons p c r => by
    rw [postorder, nodes]
    exact List.perm_middle.trans (((postorder_perm c).append (postorder_perm r)).cons p)

theorem roots_sublist : ∀ f : Forest α, f.roots.Sublist f.postorder
  | nil => List.Sublist.slnil
  | cons p c r => by
    rw [roots, postorder]
    exact ((roots_sublist r).cons_cons p).trans (List.sublist_append_right _ _)

/-- A child and its parent in a forest whose roots have the parent `par`. -/
def Child (par : α) : Forest α → α → α → Prop
  | nil, _, _ => False
  | cons p c r, x, y => (x = p ∧ y = par) ∨ Child p c x y ∨ Child par r x y

/-- **The children come first**, the roots before what follows the forest. -/
theorem child_before : ∀ {f : Forest α} {par x y : α}, Child par f x y →
    (x ∈ f.roots ∧ y = par) ∨ ∃ A B C, f.postorder = A ++ x :: B ++ y :: C
  | cons p c r, par, x, y, h => by
    rcases h with ⟨rfl, rfl⟩ | h | h
    · exact Or.inl ⟨List.mem_cons_self, rfl⟩
    · right
      rcases child_before h with ⟨hx, rfl⟩ | ⟨A, B, C, hpost⟩
      · obtain ⟨A, B, hpost⟩ := List.append_of_mem ((roots_sublist c).subset hx)
        exact ⟨A, B, r.postorder, by rw [postorder, hpost]⟩
      · exact ⟨A, B, C ++ p :: r.postorder, by rw [postorder, hpost]; simp⟩
    · rcases child_before h with ⟨hx, rfl⟩ | ⟨A, B, C, hpost⟩
      · exact Or.inl ⟨List.mem_cons_of_mem _ hx, rfl⟩
      · exact Or.inr ⟨c.postorder ++ p :: A, B, C, by rw [postorder, hpost]; simp⟩

/-- The first node in postorder is taken away: the node `x`, whose parent is `q`. -/
inductive PopLeaf : α → Forest α → α → α → Forest α → Prop
  | here (par x : α) (r : Forest α) : PopLeaf par (cons x nil r) x par r
  | deeper {p x q : α} {c c' : Forest α} (par : α) (r : Forest α) (h : PopLeaf p c x q c') :
    PopLeaf par (cons p c r) x q (cons p c' r)

theorem exists_popLeaf (par : α) : ∀ f : Forest α, f = nil ∨ ∃ x q f', PopLeaf par f x q f'
  | nil => Or.inl rfl
  | cons p c r => by
    right
    rcases exists_popLeaf p c with rfl | ⟨x, q, c', h⟩
    · exact ⟨p, par, r, PopLeaf.here par p r⟩
    · exact ⟨x, q, cons p c' r, h.deeper par r⟩

theorem PopLeaf.postorder_eq {par x q : α} {f f' : Forest α} (h : PopLeaf par f x q f') :
    f.postorder = x :: f'.postorder := by
  induction h with
  | here par x r => rfl
  | deeper par r h ih =>
    rw [postorder, postorder, ih]
    rfl

theorem PopLeaf.nodes_perm {par x q : α} {f f' : Forest α} (h : PopLeaf par f x q f') :
    f.nodes.Perm (x :: f'.nodes) := by
  have hpost := postorder_perm f
  rw [h.postorder_eq] at hpost
  exact hpost.symm.trans ((postorder_perm f').cons x)

/-- The node was the first root, or its parent stays. -/
theorem PopLeaf.roots_cases {par x q : α} {f f' : Forest α} (h : PopLeaf par f x q f') :
    (q = par ∧ f.roots = x :: f'.roots) ∨ (q ∈ f'.nodes ∧ f'.roots = f.roots) := by
  induction h with
  | here par x r => exact Or.inl ⟨rfl, rfl⟩
  | deeper par r h ih =>
    refine Or.inr ⟨?_, rfl⟩
    rcases ih with ⟨rfl, -⟩ | ⟨hq, -⟩
    · exact List.mem_cons_self
    · exact List.mem_cons_of_mem _ (List.mem_append_left _ hq)

end Forest

end HardStack.Lib.Forest
