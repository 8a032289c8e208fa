import Mathlib

/-! # Red-black trees and their contexts

Binary trees with coloured nodes, and the one-hole contexts that a fix-up loop climbs. A direction
names a side, and `CTree.mk d` builds a node from its child on the side `d` and the other one, so
that a case of the loop and its mirror image are one statement.

A context is balanced for a hole of black height `n` (`Ctx.Height`) and accepts a hole of a given
colour (`Ctx.Accepts`): filling a context with a red-black tree that fits gives a red-black tree
(`Ctx.redBlack_fill`), which is how every fix-up ends. -/

namespace HardStack.Lib.RbTree

inductive Dir
  | left
  | right
  deriving DecidableEq, Repr

/-- The other side. -/
def Dir.flip : Dir → Dir
  | left => right
  | right => left

@[simp] theorem Dir.flip_flip (d : Dir) : d.flip.flip = d := by cases d <;> rfl

@[simp] theorem Dir.flip_ne (d : Dir) : d.flip ≠ d := by cases d <;> simp [flip]

@[simp] theorem Dir.ne_flip (d : Dir) : d ≠ d.flip := by cases d <;> simp [flip]

inductive Color
  | red
  | black
  deriving DecidableEq, Repr

/-- What a node of the colour adds to the black height. -/
def Color.weight : Color → ℕ
  | .red => 0
  | .black => 1

inductive CTree (α : Type*)
  | nil
  | node (c : Color) (l : CTree α) (p : α) (r : CTree α)

variable {α : Type*}

namespace CTree

/-- The node at `p` with child `a` on the side `d` and `b` on the other. -/
def mk (d : Dir) (c : Color) (a : CTree α) (p : α) (b : CTree α) : CTree α :=
  match d with
  | .left => node c a p b
  | .right => node c b p a

def color : CTree α → Color
  | nil => .black
  | node c _ _ _ => c

def inorder : CTree α → List α
  | nil => []
  | node _ l p r => l.inorder ++ p :: r.inorder

/-- The tree with its root repainted. -/
def paint (c : Color) : CTree α → CTree α
  | nil => nil
  | node _ l p r => node c l p r

/-- Every path from the root to a leaf has `n` black nodes. -/
def Height : CTree α → ℕ → Prop
  | nil, n => n = 0
  | node c l _ r, n => ∃ m, n = m + c.weight ∧ l.Height m ∧ r.Height m

/-- No red node has a red child. -/
def NoRedRed : CTree α → Prop
  | nil => True
  | node c l _ r => (c = .red → l.color = .black ∧ r.color = .black) ∧ l.NoRedRed ∧ r.NoRedRed

/-- **A red-black tree**: a black root, no red node below a red one, and one black height. -/
structure RedBlack (t : CTree α) : Prop where
  root_black : t.color = .black
  no_red_red : t.NoRedRed
  height : ∃ n, t.Height n

end CTree

/-- `a`, then `p`, then `b` from the side `d` on. -/
def ord (d : Dir) (a : List α) (p : α) (b : List α) : List α :=
  match d with
  | .left => a ++ p :: b
  | .right => b ++ p :: a

theorem mem_ord {d : Dir} {a b : List α} {p x : α} : x ∈ ord d a p b ↔ x = p ∨ x ∈ a ∨ x ∈ b := by
  cases d <;> simp only [ord, List.mem_append, List.mem_cons] <;> tauto

theorem ord_perm (d : Dir) (a : List α) (p : α) (b : List α) :
    (ord d a p b).Perm (p :: (a ++ b)) := by
  cases d
  · exact List.perm_middle
  · exact List.perm_middle.trans (List.Perm.cons _ List.perm_append_comm)

theorem length_ord (d : Dir) (a : List α) (p : α) (b : List α) :
    (ord d a p b).length = a.length + b.length + 1 := by
  rw [(ord_perm d a p b).length_eq, List.length_cons, List.length_append]

theorem nodup_ord {d : Dir} {a b : List α} {p : α} : (ord d a p b).Nodup ↔
    p ∉ a ∧ p ∉ b ∧ a.Nodup ∧ b.Nodup ∧ a.Disjoint b := by
  rw [(ord_perm d a p b).nodup_iff, List.nodup_cons, List.nodup_append', List.mem_append, not_or,
    and_assoc]

theorem disjoint_ord_left {d : Dir} {a b l : List α} {p : α} : (ord d a p b).Disjoint l ↔
    p ∉ l ∧ a.Disjoint l ∧ b.Disjoint l := by
  rw [(ord_perm d a p b).disjoint_left, List.disjoint_cons_left, List.disjoint_append_left]

theorem disjoint_ord_right {d : Dir} {a b l : List α} {p : α} : l.Disjoint (ord d a p b) ↔
    p ∉ l ∧ l.Disjoint a ∧ l.Disjoint b := by
  rw [(ord_perm d a p b).disjoint_right, List.disjoint_cons_right, List.disjoint_append_right]

namespace CTree

variable {d : Dir} {c : Color} {a b : CTree α} {p : α} {n : ℕ}

@[simp] theorem color_nil : (nil : CTree α).color = .black := rfl

@[simp] theorem color_node {l r : CTree α} : (node c l p r).color = c := rfl

@[simp] theorem color_mk : (mk d c a p b).color = c := by cases d <;> rfl

@[simp] theorem inorder_nil : (nil : CTree α).inorder = [] := rfl

@[simp] theorem inorder_mk : (mk d c a p b).inorder = ord d a.inorder p b.inorder := by
  cases d <;> rfl

@[simp] theorem height_nil : (nil : CTree α).Height n ↔ n = 0 := Iff.rfl

@[simp] theorem height_mk :
    (mk d c a p b).Height n ↔ ∃ m, n = m + c.weight ∧ a.Height m ∧ b.Height m := by
  cases d
  · exact Iff.rfl
  · exact exists_congr fun m => and_congr_right fun _ => and_comm

@[simp] theorem noRedRed_nil : (nil : CTree α).NoRedRed := trivial

@[simp] theorem noRedRed_mk : (mk d c a p b).NoRedRed ↔
    (c = .red → a.color = .black ∧ b.color = .black) ∧ a.NoRedRed ∧ b.NoRedRed := by
  cases d
  · exact Iff.rfl
  · exact and_congr (imp_congr_right fun _ => and_comm) and_comm

theorem mk_paint (c' : Color) : (mk d c a p b).paint c' = mk d c' a p b := by cases d <;> rfl

theorem node_eq_mk (l r : CTree α) : node c l p r = mk .left c l p r := rfl

/-- A node seen from the side `d`. -/
theorem exists_mk (d : Dir) {t : CTree α} (h : t ≠ nil) : ∃ c a p b, t = mk d c a p b := by
  cases t with
  | nil => exact absurd rfl h
  | node c l p r =>
    cases d
    · exact ⟨c, l, p, r, rfl⟩
    · exact ⟨c, r, p, l, rfl⟩

theorem ne_nil_of_red {t : CTree α} (h : t.color = .red) : t ≠ nil := by
  rintro rfl; cases h

theorem ne_nil_of_height {t : CTree α} (h : t.Height (n + 1)) : t ≠ nil := by
  rintro rfl; cases h

@[simp] theorem inorder_paint {t : CTree α} : (t.paint c).inorder = t.inorder := by cases t <;> rfl

theorem paint_color {t : CTree α} (h : t.color = c) : t.paint c = t := by
  cases t with
  | nil => rfl
  | node => rw [← h]; rfl

theorem height_unique {t : CTree α} {m n : ℕ} (h : t.Height m) (h' : t.Height n) : m = n := by
  induction t generalizing m n with
  | nil => rw [height_nil] at h h'; omega
  | node c l p r ihl ihr =>
    obtain ⟨m', rfl, hl, -⟩ := h
    obtain ⟨n', rfl, hl', -⟩ := h'
    rw [ihl hl hl']

end CTree

/-! ### Contexts -/

/-- One step down: the colour and the label of the node, and the child on the other side. -/
structure Frame (α : Type*) where
  dir : Dir
  color : Color
  ptr : α
  sib : CTree α

/-- A tree with a hole, as the steps from the hole up to the root. -/
abbrev Ctx (α : Type*) := List (Frame α)

namespace Ctx

/-- The tree in the hole. -/
def fill : Ctx α → CTree α → CTree α
  | [], t => t
  | f :: K, t => fill K (CTree.mk f.dir f.color t f.ptr f.sib)

/-- The in-order sequence around that of the hole. -/
def around : Ctx α → List α → List α
  | [], L => L
  | f :: K, L => around K (ord f.dir L f.ptr f.sib.inorder)

/-- The labels of the context. -/
def ptrs : Ctx α → List α
  | [] => []
  | f :: K => f.ptr :: (f.sib.inorder ++ ptrs K)

/-- A hole of black height `n` gives a balanced tree. -/
def Height : Ctx α → ℕ → Prop
  | [], _ => True
  | f :: K, n => f.sib.Height n ∧ Height K (n + f.color.weight)

/-- A hole whose root has the given colour leaves no red node below a red one, and a black root. -/
def Accepts : Ctx α → Color → Prop
  | [], col => col = .black
  | f :: K, col => f.sib.NoRedRed ∧ (f.color = .red → col = .black ∧ f.sib.color = .black) ∧
      Accepts K f.color

variable {K : Ctx α} {t : CTree α} {n : ℕ}

theorem inorder_fill : ∀ (K : Ctx α) (t : CTree α), (K.fill t).inorder = K.around t.inorder
  | [], _ => rfl
  | f :: K, t => by
    show (fill K _).inorder = around K _
    rw [inorder_fill K, CTree.inorder_mk]

theorem around_perm : ∀ (K : Ctx α) (L : List α), (K.around L).Perm (L ++ K.ptrs)
  | [], L => by simp [around, ptrs]
  | f :: K, L => by
    show (around K _).Perm (L ++ f.ptr :: (f.sib.inorder ++ ptrs K))
    refine (around_perm K _).trans (((ord_perm _ _ _ _).append_right _).trans ?_)
    rw [List.cons_append, List.append_assoc]
    exact List.perm_middle.symm

theorem length_around (K : Ctx α) (L : List α) :
    (K.around L).length = L.length + K.ptrs.length := by
  rw [(around_perm K L).length_eq, List.length_append]

theorem mem_around {K : Ctx α} {L : List α} {x : α} : x ∈ K.around L ↔ x ∈ L ∨ x ∈ K.ptrs := by
  rw [(around_perm K L).mem_iff, List.mem_append]

theorem nodup_around {K : Ctx α} {L : List α} :
    (K.around L).Nodup ↔ L.Nodup ∧ K.ptrs.Nodup ∧ L.Disjoint K.ptrs := by
  rw [(around_perm K L).nodup_iff, List.nodup_append']

/-- **Filling.** A tree that fits the context makes it a red-black tree. -/
theorem redBlack_fill : ∀ {K : Ctx α} {t : CTree α} {n : ℕ}, t.NoRedRed → t.Height n →
    K.Height n → K.Accepts t.color → (K.fill t).RedBlack
  | [], t, n, hr, hh, _, ha => ⟨ha, hr, n, hh⟩
  | f :: K, t, n, hr, hh, ⟨hs, hK⟩, ⟨hsr, hc, ha⟩ => by
    refine redBlack_fill (K := K) (CTree.noRedRed_mk.mpr ⟨hc, hr, hsr⟩)
      (CTree.height_mk.mpr ⟨n, rfl, hh, hs⟩) hK ?_
    rw [CTree.color_mk]
    exact ha

/-- A context of a red-black tree fits the tree in its hole. -/
theorem redBlack_unfill : ∀ {K : Ctx α} {t : CTree α}, (K.fill t).RedBlack →
    t.NoRedRed ∧ (∃ n, t.Height n ∧ K.Height n) ∧ K.Accepts t.color
  | [], t, h => ⟨h.no_red_red, h.height.imp fun _ hn => ⟨hn, trivial⟩, h.root_black⟩
  | f :: K, t, h => by
    obtain ⟨hr, ⟨n, hh, hK⟩, ha⟩ := redBlack_unfill (K := K) h
    obtain ⟨hc, hrt, hrs⟩ := CTree.noRedRed_mk.mp hr
    obtain ⟨m, rfl, ht, hs⟩ := CTree.height_mk.mp hh
    rw [CTree.color_mk] at ha
    exact ⟨hrt, ⟨m, ht, hs, hK⟩, hrs, hc, ha⟩

/-- A context accepts a black hole where it accepts any. -/
theorem Accepts.black {col : Color} (h : K.Accepts col) : K.Accepts .black := by
  cases K with
  | nil => rfl
  | cons f K => exact ⟨h.1, fun hf => ⟨rfl, (h.2.1 hf).2⟩, h.2.2⟩

/-- A black frame accepts any hole. -/
theorem Accepts.of_black {f : Frame α} (h : Accepts (f :: K) .black)
    (hf : f.color = .black) (col : Color) : Accepts (f :: K) col :=
  ⟨h.1, fun hr => (by rw [hf] at hr; cases hr), h.2.2⟩

/-- A red node has a black parent. -/
theorem Accepts.parent_black {K : Ctx α} (h : Accepts K .red) :
    ∃ f K', K = f :: K' ∧ f.color = .black := by
  cases K with
  | nil => cases h
  | cons f K =>
    refine ⟨f, K, rfl, ?_⟩
    cases hf : f.color with
    | black => rfl
    | red => cases (h.2.1 hf).1

theorem fill_append : ∀ (K K' : Ctx α) (t : CTree α), fill (K ++ K') t = fill K' (fill K t)
  | [], _, _ => rfl
  | _ :: K, K', _ => fill_append K K' _

theorem around_append : ∀ (K K' : Ctx α) (L : List α),
    around (K ++ K') L = around K' (around K L)
  | [], _, _ => rfl
  | _ :: K, K', _ => around_append K K' _

theorem ptrs_append : ∀ (K K' : Ctx α), ptrs (K ++ K') = ptrs K ++ ptrs K'
  | [], _ => rfl
  | f :: K, K' => by
    show f.ptr :: (f.sib.inorder ++ ptrs (K ++ K')) = _
    rw [ptrs_append K K']
    simp [ptrs]

/-- What stands before the hole. -/
def before : Ctx α → List α
  | [] => []
  | f :: K => match f.dir with
    | .left => before K
    | .right => before K ++ (f.sib.inorder ++ [f.ptr])

/-- What stands after the hole. -/
def after : Ctx α → List α
  | [] => []
  | f :: K => match f.dir with
    | .left => f.ptr :: (f.sib.inorder ++ after K)
    | .right => after K

/-- The sequence around the hole is the same whatever is in it. -/
theorem around_eq : ∀ (K : Ctx α) (L : List α), around K L = before K ++ (L ++ after K)
  | [], L => by simp [around, before, after]
  | f :: K, L => by
    show around K (ord f.dir L f.ptr f.sib.inorder) = _
    rw [around_eq K]
    cases hd : f.dir <;> simp [ord, before, after, hd]

/-- A relation between any two of the sequence relates the top of the hole to what stands around. -/
theorem pairwise_around {R : α → α → Prop} {K : Ctx α} {c : Color} {l r : CTree α} {p : α}
    (h : (K.around (CTree.node c l p r).inorder).Pairwise R) :
    (∀ a ∈ before K ++ l.inorder, R a p) ∧ ∀ b ∈ r.inorder ++ after K, R p b := by
  have heq : K.around (CTree.node c l p r).inorder =
      (before K ++ l.inorder) ++ p :: (r.inorder ++ after K) := by
    rw [around_eq]
    simp [CTree.inorder]
  rw [heq, List.pairwise_append, List.pairwise_cons] at h
  exact ⟨fun a ha => h.2.2 a ha p List.mem_cons_self, h.2.1.1⟩

theorem length_le_around (K : Ctx α) (L : List α) : K.length ≤ (K.around L).length := by
  have hp : ∀ K : Ctx α, K.length ≤ K.ptrs.length := by
    intro K
    induction K with
    | nil => exact le_rfl
    | cons f K ih =>
      show K.length + 1 ≤ (f.sib.inorder ++ ptrs K).length + 1
      rw [List.length_append]
      omega
  rw [(around_perm K L).length_eq, List.length_append]
  have := hp K
  omega

/-- The height a context expects does not depend on the labels. -/
theorem height_relabel {d : Dir} {c : Color} {t : CTree α} {p q : α} : ∀ {Z K : Ctx α} {n : ℕ},
    Height (Z ++ ⟨d, c, p, t⟩ :: K) n → Height (Z ++ ⟨d, c, q, t⟩ :: K) n
  | [], _, _, h => h
  | _ :: _, _, _, h => ⟨h.1, height_relabel h.2⟩

theorem accepts_relabel {d : Dir} {c : Color} {t : CTree α} {p q : α} :
    ∀ {Z K : Ctx α} {col : Color},
    Accepts (Z ++ ⟨d, c, p, t⟩ :: K) col → Accepts (Z ++ ⟨d, c, q, t⟩ :: K) col
  | [], _, _, h => h
  | _ :: _, _, _, h => ⟨h.1, h.2.1, accepts_relabel h.2.2⟩

/-- Below left steps only, what comes first stays first. -/
theorem around_left {x : α} : ∀ {Z : Ctx α} {L : List α}, (∀ f ∈ Z, f.dir = .left) →
    around Z (x :: L) = x :: around Z L
  | [], _, _ => rfl
  | f :: Z, L, h => by
    show around Z (ord f.dir (x :: L) f.ptr f.sib.inorder) = x :: around Z (ord f.dir L _ _)
    rw [h f (by simp)]
    exact around_left fun g hg => h g (by simp [hg])

theorem color_fill : ∀ {Z : Ctx α} {f : Frame α} (t t' : CTree α),
    (fill (f :: Z) t).color = (fill (f :: Z) t').color
  | [], f, t, t' => by simp [fill]
  | g :: Z, f, t, t' => color_fill (f := g) _ _

/-- Every label of a tree stands at the root of a subtree. -/
theorem exists_fill {x : α} : ∀ {t : CTree α}, x ∈ t.inorder →
    ∃ (K : Ctx α) (c : Color) (l r : CTree α), t = K.fill (.node c l x r)
  | .node c l p r, hx => by
    have hx' : x ∈ l.inorder ++ p :: r.inorder := hx
    rw [List.mem_append, List.mem_cons] at hx'
    rcases hx' with hx | rfl | hx
    · obtain ⟨K, c', l', r', rfl⟩ := exists_fill hx
      refine ⟨K ++ [⟨.left, c, p, r⟩], c', l', r', ?_⟩
      rw [fill_append]; rfl
    · exact ⟨[], c, l, r, rfl⟩
    · obtain ⟨K, c', l', r', rfl⟩ := exists_fill hx
      refine ⟨K ++ [⟨.right, c, p, l⟩], c', l', r', ?_⟩
      rw [fill_append]; rfl

end Ctx

end HardStack.Lib.RbTree
