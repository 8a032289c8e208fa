import Mathlib.Order.Interval.Set.Basic
import Mathlib.Data.List.Perm.Basic

/-! # Maximal intervals of a set of numbers

A run of a set is an interval of it that cannot be made longer on either side. Two runs that share a
number are equal, and a list in strict increasing order is determined by its members. -/

namespace HardStack.Lib.Interval

variable {S : Set ℕ} {lo hi lo' hi' x : ℕ}

/-- `[lo, hi)` is a maximal non-empty interval of the set. -/
structure IsRun (S : Set ℕ) (lo hi : ℕ) : Prop where
  lt : lo < hi
  subset : Set.Ico lo hi ⊆ S
  left : ∀ x, x + 1 = lo → x ∉ S
  right : hi ∉ S

theorem IsRun.bounds_le (h : IsRun S lo hi) (h' : IsRun S lo' hi') (hx : x < hi) (hx' : lo' ≤ x) :
    lo' ≤ lo ∧ hi' ≤ hi := by
  constructor
  · by_contra hlt
    exact h'.left (lo' - 1) (by omega) (h.subset ⟨by omega, by omega⟩)
  · by_contra hlt
    exact h.right (h'.subset ⟨by omega, by omega⟩)

/-- **Two runs that share a number are one.** -/
theorem IsRun.unique (h : IsRun S lo hi) (h' : IsRun S lo' hi') (h1 : lo ≤ x) (h2 : x < hi)
    (h1' : lo' ≤ x) (h2' : x < hi') : lo = lo' ∧ hi = hi' := by
  obtain ⟨hlo, hhi⟩ := h.bounds_le h' h2 h1'
  obtain ⟨hlo', hhi'⟩ := h'.bounds_le h h2' h1
  omega

/-- **Sorted lists with the same members are equal.** -/
theorem eq_of_sorted {α : Type*} {r : α → α → Prop} (hr : ∀ a b, r a b → ¬ r b a) {L M : List α}
    (hL : L.Pairwise r) (hM : M.Pairwise r) (h : ∀ a, a ∈ L ↔ a ∈ M) : L = M := by
  have hne : ∀ {a b : α}, r a b → a ≠ b := fun hab he => hr _ _ hab (he ▸ hab)
  have hp : L.Perm M := (List.perm_ext_iff_of_nodup (hL.imp hne) (hM.imp hne)).mpr h
  exact hp.eq_of_pairwise (fun a b _ _ hab hba => absurd hba (hr a b hab)) hL hM

end HardStack.Lib.Interval
