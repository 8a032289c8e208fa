import Mathlib.Algebra.BigOperators.Group.Finset.Basic
import Mathlib.Data.Multiset.AddSub

/-! # Counting references

Nodes refer to each other, each to the nodes of the multiset `out x`. A node has the references that are
held from outside, those of the nodes in a set, and those that are about to be dropped. A node without
references leaves the set, and its own references are about to be dropped from then on. -/

namespace HardStack.Lib.RefCount

variable {α : Type*} [DecidableEq α] {out : α → Multiset α} {held : α → ℕ} {F F' : Finset α}
  {pend : Multiset α} {x y : α}

/-- The references to a node. -/
def refs (out : α → Multiset α) (held : α → ℕ) (F : Finset α) (pend : Multiset α) (x : α) : ℕ :=
  held x + ∑ y ∈ F, (out y).count x + pend.count x

/-- A node leaves the set. -/
theorem refs_release (hx : x ∈ F) (y : α) :
    refs out held (F.erase x) (out x + pend) y = refs out held F pend y := by
  unfold refs
  rw [Multiset.count_add, ← Finset.add_sum_erase F (fun z => (out z).count y) hx]
  omega

/-- A reference is dropped. -/
theorem refs_drop (out : α → Multiset α) (held : α → ℕ) (F : Finset α) (pend : Multiset α) (x y : α) :
    refs out held F (x ::ₘ pend) y = refs out held F pend y + if y = x then 1 else 0 := by
  unfold refs
  rw [Multiset.count_cons]
  omega

/-- A reference from outside is about to be dropped. -/
theorem refs_unhold (out : α → Multiset α) {held held' : α → ℕ} (F : Finset α) (pend : Multiset α)
    (hheld : ∀ y, held y = held' y + if y = x then 1 else 0) (y : α) :
    refs out held' F (x ::ₘ pend) y = refs out held F pend y := by
  unfold refs
  rw [Multiset.count_cons, hheld]
  omega

theorem held_eq_zero (h : refs out held F pend x = 0) : held x = 0 := by
  unfold refs at h
  omega

/-- Without a reference, a node is in no list of references. -/
theorem notMem_of_refs_eq_zero (h : refs out held F pend x = 0) :
    x ∉ pend ∧ ∀ y ∈ F, x ∉ out y := by
  unfold refs at h
  refine ⟨Multiset.count_eq_zero.mp (by omega), fun y hy => Multiset.count_eq_zero.mp ?_⟩
  have hsum : ∑ y ∈ F, (out y).count x = 0 := by omega
  exact (Finset.sum_eq_zero_iff.mp hsum) y hy

/-- A node out of a set that is closed has only the references from outside. -/
theorem refs_of_notMem (hclosed : ∀ y ∈ F, ∀ z ∈ out y, z ∈ F) (hx : x ∉ F) :
    refs out held F 0 x = held x := by
  unfold refs
  rw [Finset.sum_eq_zero fun y hy => Multiset.count_eq_zero.mpr fun hmem => hx (hclosed y hy x hmem),
    Multiset.count_zero, Nat.add_zero, Nat.add_zero]

end HardStack.Lib.RefCount
