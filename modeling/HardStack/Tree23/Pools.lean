import HardStack.Tree23.Model

/-! # Two trees and one set of pools

All nodes are in the buffers of `modmem`, whichever tree they are of, so nothing is left of any tree
once one is deleted. -/

namespace HardStack.Tree23.Pools

open HardStack.Lib.HeapProgram HardStack.Tree23.Model

variable {F : Type} {fl : Floats F} {s s' : State} {r : ℕ}

/-- Every node is in a buffer. -/
def Pooled (s : State) : Prop := ∀ a, s.mem a ≠ none → a.buf ∈ s.buffers

/-! ### The pools -/

theorem newBuffer_pooled (h : Pooled s) (size : ℕ) : Pooled (newBuffer s size) := by
  intro a ha
  have ha : (if a.buf = s.malloc then if a.ndx < size then some Node.zero else none
    else s.mem a) ≠ none := ha
  show a.buf ∈ s.buffers ++ [s.malloc]
  by_cases hb : a.buf = s.malloc
  · exact List.mem_append_right _ (List.mem_singleton.mpr hb)
  · rw [if_neg hb] at ha
    exact List.mem_append_left _ (h a ha)

theorem initBuffers_pooled (h : Pooled s) : Pooled (initBuffers s) := by
  unfold initBuffers
  cases s.memBuf with
  | none => exact newBuffer_pooled h _
  | some b => exact h

theorem modmemGet_pooled (h : Pooled s) : Pooled (modmemGet s).2 := by
  have hi := initBuffers_pooled h
  unfold modmemGet
  generalize initBuffers s = t at hi ⊢
  cases hd : t.delbuf with
  | cons a rest =>
    simp only [hd]
    exact hi
  | nil =>
    simp only [hd]
    by_cases hfull : t.bufSize < t.bufNdx + 1
    · simp only [if_pos hfull]
      exact newBuffer_pooled (s := { t with bufSize := t.bufSize * 2 }) hi _
    · simp only [if_neg hfull]
      exact hi

/-- A node that is there is overwritten. -/
theorem update_pooled (h : Pooled s) {a : Addr} (ha : s.mem a ≠ none) (n : Node) :
    Pooled { s with mem := Function.update s.mem a (some n) } := by
  intro b hb
  by_cases hab : b = a
  · rw [hab]
    exact h a ha
  · exact h b ((Function.update_of_ne hab _ _).symm.trans_ne hb)

theorem modmemDel_pooled (h : Pooled s) {p : Option Addr} (hd : modmemDel s p = some s') :
    Pooled s' := by
  have hi := initBuffers_pooled h
  unfold modmemDel at hd
  cases p with
  | none => exact Option.some.inj hd ▸ hi
  | some a =>
    by_cases ha : ((initBuffers s).mem a).isSome
    · simp only [if_pos ha, Option.some.injEq] at hd
      rw [← hd]
      exact update_pooled hi (Option.isSome_iff_ne_none.mp ha) .zero
    · simp only [if_neg ha, reduceCtorEq] at hd

/-- **Nothing is left** after `modmem(FREE, NULL)`. -/
theorem modmemFree_mem (h : Pooled s) (a : Addr) : (modmemFree s).mem a = none := by
  show (if a.buf ∈ (initBuffers s).buffers then none else (initBuffers s).mem a) = none
  by_cases hb : a.buf ∈ (initBuffers s).buffers
  · exact if_pos hb
  · rw [if_neg hb]
    by_contra hne
    exact hb (initBuffers_pooled h a hne)

/-- A program keeps the nodes in the buffers. -/
theorem run_pooled {α : Type} (m : Program Addr Node α) {a : α} (h : Pooled s)
    (hr : m.run machine s = some (a, s')) : Pooled s' := by
  refine Program.run_invariant (I := Pooled) (fun s p n m hs hl => ?_) (fun s hs => ?_)
    (fun s p s' hs hd => modmemDel_pooled hs hd) m h hr
  · exact update_pooled hs (by rw [show s.mem p = some m from hl]; exact Option.some_ne_none m) n
  · exact modmemGet_pooled hs

/-! ### Runs -/

theorem onRoot_pooled {f : Option Addr → Program Addr Node (Option Addr)} (h : Pooled s)
    (ho : onRoot f s r = some s') : Pooled s' := by
  obtain ⟨root, -, ho⟩ := Option.bind_eq_some_iff.mp ho
  obtain ⟨⟨root', s₁⟩, hrun, ho⟩ := Option.bind_eq_some_iff.mp ho
  have hp : Pooled s₁ := run_pooled (f root) h hrun
  rw [← Option.some.inj ho]
  exact hp

theorem step_pooled (h : Pooled s) (hst : Step fl s s') : Pooled s' := by
  cases hst with
  | init hr => exact modmemGet_pooled h
  | insert hs => exact onRoot_pooled h hs
  | erase hs => exact onRoot_pooled h hs
  | deltree hr => exact fun a ha => absurd (modmemFree_mem h a) ha

theorem reachable_pooled (hs : Reachable fl s) : Pooled s := by
  induction hs with
  | refl => exact fun a ha => absurd rfl ha
  | tail _ hst ih => exact step_pooled ih hst

/-! ### The other tree -/

/-- With no node left, what starts by looking at the root faults. -/
theorem onRoot_fault (h : ∀ a, s.mem a = none)
    (k : Option Addr → Node → Program Addr Node (Option Addr)) :
    onRoot (fun root => load root >>= k root) s r = none := by
  unfold onRoot
  cases s.roots r with
  | none => rfl
  | some root =>
    have := run_load_bind_none (c := machine) (s := s) (p := root) (fun a _ => h a) (k root)
    simp only [Option.bind_eq_bind, Option.bind_some, this, Option.bind_none]

theorem insert_fault (h : ∀ a, s.mem a = none) (fuel : ℕ) (val : F) :
    insert fl fuel val s r = none := onRoot_fault h _

theorem erase_fault (h : ∀ a, s.mem a = none) (fuel : ℕ) (val : F) :
    erase fl fuel val s r = none := onRoot_fault h _

theorem print_fault (h : ∀ a, s.mem a = none) (fuel : ℕ) :
    onTree (tree23Print fuel) s r = none := by
  unfold onTree
  cases s.roots r with
  | none => rfl
  | some root =>
    have hrun : (tree23Print fuel root).run machine s = none := by
      cases fuel with
      | zero => rfl
      | succ fuel => exact run_load_bind_none (fun a _ => h a) _
    simp only [Option.bind_eq_bind, Option.bind_some, hrun, Option.bind_none]

/-- The tree of a root is as it was, in its values and its nodes, and can be used. -/
structure Intact (fl : Floats F) (s s' : State) (r : ℕ) : Prop where
  contents : ∃ fuel xs, onTree (tree23Print fuel) s r = some xs ∧
    onTree (tree23Print fuel) s' r = some xs
  shape : ∃ fuel t, onTree (look fuel) s r = some t ∧ onTree (look fuel) s' r = some t
  insertable : ∀ val, ∃ fuel, insert fl fuel val s' r ≠ none
  erasable : ∀ val, ∃ fuel, erase fl fuel val s' r ≠ none

theorem not_intact (h : ∀ a, s'.mem a = none) : ¬ Intact fl s s' r := by
  intro hi
  obtain ⟨fuel, xs, -, hx⟩ := hi.contents
  rw [print_fault h] at hx
  cases hx

theorem deltree_mem (hs : Reachable fl s) (a : Addr) : (tree23Deltree s r).mem a = none :=
  modmemFree_mem (reachable_pooled hs) a

/-- **Deleting a tree takes every other one with it**: its root is still there, but nothing of it can
be read, and no value can be inserted or erased any more. -/
theorem deltree_breaks {r₁ r₂ : ℕ} (hs : Reachable fl s) (h₂ : s.roots r₂ ≠ none) (hne : r₁ ≠ r₂) :
    (tree23Deltree s r₁).roots r₂ ≠ none ∧ ¬ Intact fl s (tree23Deltree s r₁) r₂ ∧
      ∀ fuel val, onTree (tree23Print fuel) (tree23Deltree s r₁) r₂ = none ∧
        insert fl fuel val (tree23Deltree s r₁) r₂ = none ∧
        erase fl fuel val (tree23Deltree s r₁) r₂ = none := by
  have hmem : ∀ a, (tree23Deltree s r₁).mem a = none := deltree_mem hs
  have hroots : (tree23Deltree s r₁).roots r₂ = s.roots r₂ := by
    have hinit : (initBuffers s).roots = s.roots := by
      unfold initBuffers
      cases s.memBuf <;> rfl
    show Function.update (initBuffers s).roots r₁ none r₂ = _
    rw [Function.update_of_ne (Ne.symm hne), hinit]
  refine ⟨by rwa [hroots], not_intact hmem, fun fuel val => ⟨print_fault hmem fuel,
    insert_fault hmem fuel val, erase_fault hmem fuel val⟩⟩

/-! ### Two trees of one value -/

/-- Floats that are integers. -/
def ints : Floats ℤ where
  ofInt := id
  toInt := id
  lt x y := x < y
  le x y := x ≤ y
  eq x y := x = y

def twoRoots : State := tree23RootInit (tree23RootInit init 0) 1

/-- The first tree holds a value, and then the second one too. -/
def oneValue : State := (insert ints 1 5 twoRoots 0).getD init
def twoValues : State := (insert ints 1 7 oneValue 1).getD init

theorem eq_some_getD {α : Type} {o : Option α} (h : o.isSome) (a : α) : o = some (o.getD a) := by
  cases o with
  | none => cases h
  | some x => rfl

theorem reachable_twoValues : Reachable ints twoValues := by
  have h0 : Step ints init (tree23RootInit init 0) := Step.init rfl
  have h1 : Step ints (tree23RootInit init 0) twoRoots := Step.init (by decide)
  have h2 : Step ints twoRoots oneValue := Step.insert (eq_some_getD (by decide +kernel) init)
  have h3 : Step ints oneValue twoValues := Step.insert (eq_some_getD (by decide +kernel) init)
  exact (((Relation.ReflTransGen.single h0).tail h1).tail h2).tail h3

/-- The second tree can be read before. -/
theorem print_twoValues : onTree (tree23Print 1) twoValues 1 = some [7] := by decide +kernel

theorem deltree_breaks_twoValues : (tree23Deltree twoValues 0).roots 1 ≠ none ∧
    ¬ Intact ints twoValues (tree23Deltree twoValues 0) 1 ∧
      ∀ fuel val, onTree (tree23Print fuel) (tree23Deltree twoValues 0) 1 = none ∧
        insert ints fuel val (tree23Deltree twoValues 0) 1 = none ∧
        erase ints fuel val (tree23Deltree twoValues 0) 1 = none :=
  deltree_breaks reachable_twoValues (by decide +kernel) (by decide)

/-- **Two trees are not independent.** -/
theorem not_independent : ¬ ∀ (s : State) (r₁ r₂ : ℕ), Reachable ints s → s.roots r₁ ≠ none →
    s.roots r₂ ≠ none → r₁ ≠ r₂ → Intact ints s (tree23Deltree s r₁) r₂ := by
  intro hall
  exact not_intact (deltree_mem reachable_twoValues)
    (hall twoValues 0 1 reachable_twoValues (by decide +kernel) (by decide +kernel) (by decide))

end HardStack.Tree23.Pools
