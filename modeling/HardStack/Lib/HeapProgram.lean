import Mathlib

/-! # Programs on the nodes of a heap

A program loads and stores nodes through pointers, gets new nodes and gives nodes back. A machine says
what these operations do to a state; a pointer that is null or points nowhere is a fault, and the run
has no result. What every operation of a machine keeps is kept by every program. -/

namespace HardStack.Lib.HeapProgram

inductive Program (A N α : Type) : Type
  | ret (a : α)
  | load (p : Option A) (next : N → Program A N α)
  | store (p : Option A) (f : N → N) (next : Program A N α)
  | get (next : A → Program A N α)
  | del (p : Option A) (next : Program A N α)
  | fault

variable {A N α β : Type}

def Program.bind (m : Program A N α) (k : α → Program A N β) : Program A N β :=
  match m with
  | .ret a => k a
  | .load p next => .load p fun n => (next n).bind k
  | .store p f next => .store p f (next.bind k)
  | .get next => .get fun a => (next a).bind k
  | .del p next => .del p (next.bind k)
  | .fault => .fault

instance : Monad (Program A N) where
  pure := .ret
  bind := .bind

/-- The node a pointer points to. -/
def load (p : Option A) : Program A N N := .load p .ret

/-- A node is changed in place. -/
def store (p : Option A) (f : N → N) : Program A N Unit := .store p f (.ret ())

def get : Program A N (Option A) := .get fun a => .ret (some a)

def del (p : Option A) : Program A N Unit := .del p (.ret ())

def fault : Program A N α := .fault

/-- What the operations do. -/
structure Machine (σ A N : Type) where
  load : σ → A → Option N
  store : σ → A → N → σ
  get : σ → A × σ
  del : σ → Option A → Option σ

variable {σ : Type}

def Program.run (m : Program A N α) (c : Machine σ A N) (s : σ) : Option (α × σ) :=
  match m with
  | .ret a => some (a, s)
  | .load none _ => none
  | .load (some p) next =>
    match c.load s p with
    | none => none
    | some n => (next n).run c s
  | .store none _ _ => none
  | .store (some p) f next =>
    match c.load s p with
    | none => none
    | some n => next.run c (c.store s p (f n))
  | .get next => (next (c.get s).1).run c (c.get s).2
  | .del p next =>
    match c.del s p with
    | none => none
    | some s => next.run c s
  | .fault => none

/-- A program that starts by loading through a dangling pointer has no result. -/
theorem run_load_bind_none {c : Machine σ A N} {s : σ} {p : Option A}
    (h : ∀ a, p = some a → c.load s a = none) (k : N → Program A N α) :
    Program.run (load p >>= k) c s = none := by
  cases p with
  | none => rfl
  | some a =>
    simp only [load, bind, Program.bind, Program.run, h a rfl]

/-- **The invariant rule.** What the operations keep is kept by every program. -/
theorem Program.run_invariant {c : Machine σ A N} {I : σ → Prop}
    (hstore : ∀ s p n m, I s → c.load s p = some m → I (c.store s p n)) (hget : ∀ s, I s → I (c.get s).2)
    (hdel : ∀ s p s', I s → c.del s p = some s' → I s') (m : Program A N α) :
    ∀ {s s' : σ} {a : α}, I s → m.run c s = some (a, s') → I s' := by
  induction m with
  | ret a =>
    intro s s' b hi h
    obtain ⟨-, rfl⟩ := Prod.mk.inj (Option.some.inj h)
    exact hi
  | load p next ih =>
    intro s s' b hi h
    cases p with
    | none => cases h
    | some p =>
      unfold Program.run at h
      cases hl : c.load s p with
      | none =>
        rw [hl] at h
        cases h
      | some n =>
        rw [hl] at h
        exact ih n hi h
  | store p f next ih =>
    intro s s' b hi h
    cases p with
    | none => cases h
    | some p =>
      unfold Program.run at h
      cases hl : c.load s p with
      | none =>
        rw [hl] at h
        cases h
      | some n =>
        rw [hl] at h
        exact ih (hstore s p (f n) n hi hl) h
  | get next ih =>
    intro s s' b hi h
    exact ih _ (hget s hi) h
  | del p next ih =>
    intro s s' b hi h
    unfold Program.run at h
    cases hd : c.del s p with
    | none =>
      rw [hd] at h
      cases h
    | some s₁ =>
      rw [hd] at h
      exact ih (hdel s p s₁ hi hd) h
  | fault =>
    intro s s' b hi h
    cases h

end HardStack.Lib.HeapProgram
