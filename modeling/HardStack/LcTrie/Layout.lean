import HardStack.Lib.Patricia
import HardStack.LcTrie.Model

/-! # The trie in memory

`Stored`: the memory holds a Patricia tree below the key vector of the trie, every node with a pointer
to the node above. The tree and its contexts are related to the memory separately, so that a write is
accounted for at the one node it changes. -/

namespace HardStack.LcTrie.Layout

open HardStack.Lib.Patricia HardStack.LcTrie.Model

variable {s s' : State} {t above par p k pos c c' : ℕ} {i : Bool} {a b C : PTree ℕ} {Z : Ctx ℕ}

@[simp] theorem ok_bind {α β : Type} (x : α) (f : α → Except Fault β) :
    (Except.ok x >>= f) = f x := rfl

theorem load_eq {n : ℕ} {v : Node} (h : s.mem n = some v) : s.load n = .ok v := by
  unfold State.load
  rw [h]

/-- The address of a tree, `0` for the empty one. -/
def ptr : PTree ℕ → ℕ
  | .nil => 0
  | .leaf p _ => p
  | .node p _ _ _ _ => p

@[simp] theorem ptr_nil : ptr .nil = 0 := rfl

@[simp] theorem ptr_mk : ptr (.mk i p k pos a b) = p := by cases i <;> rfl

/-- The node above the hole, the key vector of the trie at the top. -/
def up (t : ℕ) : Ctx ℕ → ℕ
  | [] => t
  | f :: _ => f.p

/-- The slot of the hole there. -/
def slot : Ctx ℕ → ℕ
  | [] => 0
  | f :: _ => f.dir.toNat

/-- A leaf at `p`. -/
def IsLeaf (s : State) (par p x : ℕ) : Prop :=
  p ≠ 0 ∧ ∃ v, s.mem p = some v ∧ v.parent = par ∧ v.key = x ∧ v.pos = 0 ∧ v.bits = 0

/-- An inner node at `p`, with `c` in the slot `i` and `c'` in the other. -/
def IsTnode (s : State) (par p k pos : ℕ) (i : Bool) (c c' : ℕ) : Prop :=
  p ≠ 0 ∧ ∃ v, s.mem p = some v ∧ v.parent = par ∧ v.key = k ∧ v.pos = pos ∧ v.bits = 1 ∧
    v.tnode i.toNat = c ∧ v.tnode (!i).toNat = c'

/-- The memory holds the tree below the node `par`. -/
def Rep (s : State) : ℕ → PTree ℕ → Prop
  | _, .nil => True
  | par, .leaf p x => IsLeaf s par p x
  | par, .node p k pos l r => IsTnode s par p k pos false (ptr l) (ptr r) ∧ Rep s p l ∧ Rep s p r

theorem isTnode_not : IsTnode s par p k pos (!i) c c' ↔ IsTnode s par p k pos i c' c := by
  unfold IsTnode
  rw [Bool.not_not]
  simp only [and_comm (a := _ = c)]

theorem rep_mk : Rep s par (.mk i p k pos a b) ↔
    IsTnode s par p k pos i (ptr a) (ptr b) ∧ Rep s p a ∧ Rep s p b := by
  cases i
  · exact Iff.rfl
  · show IsTnode s par p k pos false (ptr b) (ptr a) ∧ Rep s p b ∧ Rep s p a ↔ _
    rw [← isTnode_not, Bool.not_false, and_comm (a := Rep s p b)]

/-- The memory holds the context, with `c` in the slot of the hole. -/
def RepCtx (t above : ℕ) (s : State) : Ctx ℕ → ℕ → Prop
  | [], c => ∃ v, s.mem t = some v ∧ v.parent = above ∧ v.key = 0 ∧ v.pos = 32 ∧ v.bits = 0 ∧
      v.tnode 0 = c
  | f :: Z, c => IsTnode s (up t Z) f.p f.key f.pos f.dir c (ptr f.sib) ∧ Rep s f.p f.sib ∧
      RepCtx t above s Z f.p

theorem rep_fill : ∀ {Z : Ctx ℕ} {C : PTree ℕ},
    (RepCtx t above s [] (ptr (Z.fill C)) ∧ Rep s t (Z.fill C)) ↔
      (RepCtx t above s Z (ptr C) ∧ Rep s (up t Z) C)
  | [], _ => Iff.rfl
  | f :: Z, C => by
    rw [Ctx.fill, rep_fill, Frame.tree, ptr_mk, rep_mk]
    constructor
    · rintro ⟨hZ, hf, hC, hsib⟩
      exact ⟨⟨hf, hsib, hZ⟩, hC⟩
    · rintro ⟨⟨hf, hsib, hZ⟩, hC⟩
      exact ⟨hZ, hf, hC, hsib⟩

/-- **What the memory looks like**: a Patricia tree for keys of 32 bits without empty nodes. -/
structure Stored (t above : ℕ) (s : State) (T : PTree ℕ) : Prop where
  pos : t ≠ 0
  root : RepCtx t above s [] (ptr T)
  tree : Rep s t T
  nodup : (t ::ₘ T.addresses).Nodup
  wf : T.Wf 0 32
  full : T.Full

/-! ### Frames -/

theorem Rep.congr : ∀ {C : PTree ℕ} {par : ℕ}, Rep s par C →
    (∀ p ∈ C.addresses, s'.mem p = s.mem p) → Rep s' par C
  | .nil, _, _, _ => trivial
  | .leaf p _, _, h, hmem => by
    obtain ⟨h0, v, hv, hrest⟩ := h
    exact ⟨h0, v, (hmem p (Multiset.mem_singleton_self p)).trans hv, hrest⟩
  | .node p _ _ l r, _, h, hmem => by
    obtain ⟨⟨h0, v, hv, hrest⟩, hl, hr⟩ := h
    exact ⟨⟨h0, v, (hmem p (Multiset.mem_cons_self p _)).trans hv, hrest⟩,
      hl.congr fun q hq => hmem q (Multiset.mem_cons_of_mem (Multiset.mem_add.mpr (Or.inl hq))),
      hr.congr fun q hq => hmem q (Multiset.mem_cons_of_mem (Multiset.mem_add.mpr (Or.inr hq)))⟩

theorem RepCtx.congr : ∀ {Z : Ctx ℕ} {c : ℕ}, RepCtx t above s Z c →
    (∀ p ∈ t ::ₘ Z.addresses, s'.mem p = s.mem p) → RepCtx t above s' Z c
  | [], _, h, hmem => by
    obtain ⟨v, hv, hrest⟩ := h
    exact ⟨v, (hmem t (Multiset.mem_cons_self t _)).trans hv, hrest⟩
  | f :: Z, _, h, hmem => by
    obtain ⟨⟨h0, v, hv, hrest⟩, hsib, hZ⟩ := h
    have hsub : ∀ q, q = t ∨ q = f.p ∨ q ∈ f.sib.addresses ∨ q ∈ Ctx.addresses Z →
        s'.mem q = s.mem q := by
      intro q hq
      refine hmem q ?_
      rw [Ctx.addresses, Multiset.mem_cons, Multiset.mem_cons, Multiset.mem_add]
      exact hq
    refine ⟨⟨h0, v, (hsub f.p (Or.inr (Or.inl rfl))).trans hv, hrest⟩,
      hsib.congr fun q hq => hsub q (Or.inr (Or.inr (Or.inl hq))), hZ.congr fun q hq => ?_⟩
    rcases Multiset.mem_cons.mp hq with rfl | hq
    · exact hsub q (Or.inl rfl)
    · exact hsub q (Or.inr (Or.inr (Or.inr hq)))

/-- The node above the hole. -/
theorem RepCtx.up_node (h : RepCtx t above s Z c) : ∃ v, s.mem (up t Z) = some v ∧
    v.tnode (slot Z) = c := by
  cases Z with
  | nil =>
    obtain ⟨v, hv, -, -, -, -, hc⟩ := h
    exact ⟨v, hv, hc⟩
  | cons f Z =>
    obtain ⟨⟨-, v, hv, -, -, -, -, hc, -⟩, -, -⟩ := h
    exact ⟨v, hv, hc⟩

theorem up_mem (t : ℕ) (Z : Ctx ℕ) : up t Z ∈ t ::ₘ Z.addresses := by
  cases Z with
  | nil => exact Multiset.mem_cons_self t _
  | cons f Z => exact Multiset.mem_cons_of_mem (Multiset.mem_cons_self f.p _)

theorem toNat_ne_not (i : Bool) : (!i).toNat ≠ i.toNat := by cases i <;> decide

/-- **A write to the slot of the hole.** -/
theorem RepCtx.write {v : Node} (h : RepCtx t above s Z c) (hnd : (t ::ₘ Z.addresses).Nodup)
    (hv : s.mem (up t Z) = some v)
    (hself : s'.mem (up t Z) = some { v with tnode := Function.update v.tnode (slot Z) c' })
    (hother : ∀ p ∈ t ::ₘ Z.addresses, p ≠ up t Z → s'.mem p = s.mem p) :
    RepCtx t above s' Z c' := by
  cases Z with
  | nil =>
    obtain ⟨w, hw, h1, h2, h3, h4, -⟩ := h
    obtain rfl : v = w := Option.some.inj (hv.symm.trans hw)
    refine ⟨_, hself, h1, h2, h3, h4, ?_⟩
    exact Function.update_self (slot []) c' v.tnode
  | cons f Z =>
    obtain ⟨⟨h0, w, hw, h1, h2, h3, h4, -, h6⟩, hsib, hZ⟩ := h
    obtain rfl : v = w := Option.some.inj (hv.symm.trans hw)
    obtain ⟨ht, hrest⟩ := Multiset.nodup_cons.mp hnd
    obtain ⟨hf, -⟩ := Multiset.nodup_cons.mp hrest
    rw [Multiset.mem_add, not_or] at hf
    have htf : t ≠ f.p := fun heq => ht (heq ▸ Multiset.mem_cons_self f.p _)
    refine ⟨⟨h0, _, hself, h1, h2, h3, h4, ?_, ?_⟩, ?_, ?_⟩
    · exact Function.update_self f.dir.toNat c' v.tnode
    · show Function.update v.tnode f.dir.toNat c' (!f.dir).toNat = _
      rw [Function.update_of_ne (toNat_ne_not f.dir)]
      exact h6
    · refine hsib.congr fun q hq => hother q ?_ fun heq => hf.1 (by rw [← show q = f.p from heq]; exact hq)
      exact Multiset.mem_cons_of_mem (Multiset.mem_cons_of_mem (Multiset.mem_add.mpr (Or.inl hq)))
    · refine hZ.congr fun q hq => ?_
      rcases Multiset.mem_cons.mp hq with rfl | hq
      · exact hother q (Multiset.mem_cons_self q _) htf
      · refine hother q ?_ fun heq => hf.2 (by rw [← show q = f.p from heq]; exact hq)
        exact Multiset.mem_cons_of_mem (Multiset.mem_cons_of_mem (Multiset.mem_add.mpr (Or.inr hq)))

/-- **A new parent** for the topmost node of a tree. -/
theorem Rep.reparent {v : Node} {par' : ℕ} (h : Rep s par C) (hC : C ≠ .nil)
    (hnd : C.addresses.Nodup) (hv : s.mem (ptr C) = some v)
    (hself : s'.mem (ptr C) = some { v with parent := par' })
    (hother : ∀ p ∈ C.addresses, p ≠ ptr C → s'.mem p = s.mem p) : Rep s' par' C := by
  cases C with
  | nil => exact absurd rfl hC
  | leaf p x =>
    obtain ⟨h0, w, hw, -, hrest⟩ := h
    obtain rfl : v = w := Option.some.inj (hv.symm.trans hw)
    exact ⟨h0, _, hself, rfl, hrest⟩
  | node p k pos l r =>
    obtain ⟨⟨h0, w, hw, -, hrest⟩, hl, hr⟩ := h
    obtain rfl : v = w := Option.some.inj (hv.symm.trans hw)
    obtain ⟨hp, -⟩ := Multiset.nodup_cons.mp hnd
    have hsub : ∀ q ∈ l.addresses + r.addresses, s'.mem q = s.mem q := fun q hq =>
      hother q (Multiset.mem_cons_of_mem hq) fun heq => hp (by
        rw [show p = q from heq.symm]
        exact hq)
    exact ⟨⟨h0, _, hself, rfl, hrest⟩,
      hl.congr fun q hq => hsub q (Multiset.mem_add.mpr (Or.inl hq)),
      hr.congr fun q hq => hsub q (Multiset.mem_add.mpr (Or.inr hq))⟩

/-- The topmost node of a tree. -/
theorem Rep.top (h : Rep s par C) (hC : C ≠ .nil) : ptr C ≠ 0 ∧ ptr C ∈ C.addresses ∧
    ∃ v, s.mem (ptr C) = some v ∧ v.key = C.key ∧ v.parent = par := by
  cases C with
  | nil => exact absurd rfl hC
  | leaf p x =>
    obtain ⟨h0, v, hv, hpar, hk, -⟩ := h
    exact ⟨h0, Multiset.mem_singleton_self p, v, hv, hk, hpar⟩
  | node p k pos l r =>
    obtain ⟨⟨h0, v, hv, hpar, hk, -⟩, -, -⟩ := h
    exact ⟨h0, Multiset.mem_cons_self p _, v, hv, hk, hpar⟩

/-- Every node of a tree is in memory. -/
theorem Rep.mem_ne_none : ∀ {C : PTree ℕ} {par : ℕ}, Rep s par C → ∀ p ∈ C.addresses,
    s.mem p ≠ none ∧ p ≠ 0
  | .nil, _, _, p, hp => absurd hp (Multiset.notMem_zero p)
  | .leaf q _, _, h, p, hp => by
    obtain ⟨h0, v, hv, -⟩ := h
    rw [Multiset.mem_singleton.mp hp, hv]
    exact ⟨nofun, h0⟩
  | .node q _ _ l r, _, h, p, hp => by
    obtain ⟨⟨h0, v, hv, -⟩, hl, hr⟩ := h
    rcases Multiset.mem_cons.mp hp with rfl | hp
    · rw [hv]
      exact ⟨nofun, h0⟩
    · rcases Multiset.mem_add.mp hp with hp | hp
      · exact hl.mem_ne_none p hp
      · exact hr.mem_ne_none p hp

theorem RepCtx.mem_ne_none : ∀ {Z : Ctx ℕ} {c : ℕ}, RepCtx t above s Z c →
    ∀ p ∈ t ::ₘ Z.addresses, s.mem p ≠ none
  | [], _, h, p, hp => by
    obtain ⟨v, hv, -⟩ := h
    rw [show p = t by simpa [Ctx.addresses] using hp, hv]
    exact Option.some_ne_none _
  | f :: Z, _, h, p, hp => by
    obtain ⟨⟨-, v, hv, -⟩, hsib, hZ⟩ := h
    rw [Ctx.addresses, Multiset.mem_cons, Multiset.mem_cons, Multiset.mem_add] at hp
    rcases hp with hp | hp | hp | hp
    · exact hZ.mem_ne_none p (hp ▸ Multiset.mem_cons_self p _)
    · rw [hp, hv]
      exact Option.some_ne_none _
    · exact (hsib.mem_ne_none p hp).1
    · exact hZ.mem_ne_none p (Multiset.mem_cons_of_mem hp)

end HardStack.LcTrie.Layout
