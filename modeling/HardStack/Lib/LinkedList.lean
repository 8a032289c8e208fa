import Mathlib.Data.List.Basic
import Mathlib.Logic.Function.Basic

/-! # Singly linked lists

`Chain nil next a L`: from `a` on, `next` runs through the elements of `L` and ends at `nil`. Such a
list is finite, so that a chain is never cyclic. A write to the link of an element that is not on a
list does not change the list. -/

namespace HardStack.Lib.LinkedList

variable {α : Type*} {nil : α} {next next' : α → α} {a x : α} {L : List α}

/-- The elements of the list that starts at `a`. -/
def Chain (nil : α) (next : α → α) : α → List α → Prop
  | a, [] => a = nil
  | a, x :: L => a = x ∧ x ≠ nil ∧ Chain nil next (next x) L

/-- Only the links of the elements matter. -/
theorem Chain.congr : ∀ {L : List α} {a : α}, Chain nil next a L → (∀ x ∈ L, next' x = next x) →
    Chain nil next' a L
  | [], _, h, _ => h
  | x :: L, a, h, hn => by
    obtain ⟨ha, hx, hL⟩ := h
    refine ⟨ha, hx, ?_⟩
    rw [hn x List.mem_cons_self]
    exact hL.congr fun y hy => hn y (List.mem_cons_of_mem _ hy)

theorem Chain.nil_notMem : ∀ {L : List α} {a : α}, Chain nil next a L → nil ∉ L
  | [], _, _ => List.not_mem_nil
  | x :: L, a, h => by
    obtain ⟨-, hx, hL⟩ := h
    intro hmem
    rcases List.mem_cons.mp hmem with hn | hn
    · exact hx hn.symm
    · exact hL.nil_notMem hn

theorem Chain.eq_nil (h : Chain nil next nil L) : L = [] := by
  cases L with
  | nil => rfl
  | cons x L => exact absurd h.1.symm h.2.1

theorem chain_nil : Chain nil next nil [] := rfl

/-- The first element of a list that is not empty. -/
theorem Chain.pop (h : Chain nil next a L) (ha : a ≠ nil) :
    ∃ L', L = a :: L' ∧ Chain nil next (next a) L' := by
  cases L with
  | nil => exact absurd h ha
  | cons x L =>
    obtain ⟨rfl, -, hL⟩ := h
    exact ⟨L, rfl, hL⟩

theorem Chain.ne_nil (h : Chain nil next a L) (hL : L ≠ []) : a ≠ nil := by
  cases L with
  | nil => exact absurd rfl hL
  | cons x L =>
    obtain ⟨rfl, hx, -⟩ := h
    exact hx

/-- A list is determined by its first element. -/
theorem Chain.unique : ∀ {L M : List α} {a : α}, Chain nil next a L → Chain nil next a M → L = M
  | [], M, a, hL, hM => by
    rw [show a = nil from hL] at hM
    exact hM.eq_nil.symm
  | x :: L, M, a, hL, hM => by
    obtain ⟨rfl, hx, hL⟩ := hL
    obtain ⟨M', rfl, hM'⟩ := hM.pop hx
    rw [hL.unique hM']

/-- **Linking a new element behind the last one.** -/
theorem Chain.snoc [DecidableEq α] {z p : α} (hp : p ≠ nil) (hend : next p = nil) :
    ∀ {L : List α} {a : α}, Chain nil next a (L ++ [z]) → (L ++ [z]).Nodup → p ∉ L ++ [z] →
      Chain nil (Function.update next z p) a (L ++ [z] ++ [p])
  | [], a, h, _, hnot => by
    obtain ⟨rfl, hz, -⟩ := h
    have hpa : p ≠ a := fun he => hnot (he ▸ List.mem_singleton_self _)
    refine ⟨rfl, hz, ?_⟩
    rw [Function.update_self]
    refine ⟨rfl, hp, ?_⟩
    rw [Function.update_of_ne hpa]
    exact hend
  | x :: L, a, h, hnd, hnot => by
    obtain ⟨rfl, hx, hL⟩ := h
    obtain ⟨hxL, hnd⟩ := List.nodup_cons.mp hnd
    have hxz : a ≠ z := fun he => hxL (he ▸ List.mem_append_right L (List.mem_singleton_self _))
    refine ⟨rfl, hx, ?_⟩
    rw [Function.update_of_ne hxz]
    exact hL.snoc hp hend hnd fun h => hnot (List.mem_cons_of_mem _ h)

/-- The link of the last element. -/
theorem Chain.last {z : α} : ∀ {L : List α} {a : α}, Chain nil next a (L ++ [z]) → next z = nil
  | [], _, h => h.2.2
  | _ :: _, _, h => h.2.2.last

end HardStack.Lib.LinkedList
