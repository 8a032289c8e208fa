import Mathlib

/-! # Patricia trees

Binary tries whose nodes skip the digits that all keys below share. A node tests the bit `pos` of a
key, and its own key holds the bits above it, all others clear. A tree is well formed below the
leading bits `q` from bit `d` on (`PTree.Wf`); nothing is said about a node with one child or none,
since a removal leaves such nodes behind. `PTree.Full` says that there is no node without keys.

A context has the frames from the hole upwards. What fits in its hole is told by the lowest frame
(`Ctx.pre`, `Ctx.depth`), so that a tree is changed in one place by changing what the hole holds. -/

namespace HardStack.Lib.Patricia

/-! ### Bits -/

section Bits

variable {a b c d e m : ℕ}

theorem xor_div_two_pow (a b m : ℕ) : (a ^^^ b) / 2 ^ m = (a / 2 ^ m) ^^^ (b / 2 ^ m) := by
  simp only [← Nat.shiftRight_eq_div_pow]
  exact Nat.shiftRight_xor_distrib

theorem div_two_pow_succ (a m : ℕ) : a / 2 ^ (m + 1) = a / 2 ^ m / 2 := by
  rw [pow_succ, Nat.div_div_eq_div_mul]

/-- A number is its leading bits and the bit below them. -/
theorem div_two_pow_eq (a m : ℕ) : a / 2 ^ m = 2 * (a / 2 ^ (m + 1)) + (a.testBit m).toNat := by
  have h := Nat.div_add_mod (a / 2 ^ m) 2
  rw [div_two_pow_succ, Nat.toNat_testBit]
  omega

/-- Numbers that agree from a bit on agree from every higher one. -/
theorem div_eq_of_le (hde : d ≤ e) (h : a / 2 ^ d = b / 2 ^ d) : a / 2 ^ e = b / 2 ^ e := by
  obtain ⟨k, rfl⟩ := Nat.exists_eq_add_of_le hde
  rw [pow_add, ← Nat.div_div_eq_div_mul, ← Nat.div_div_eq_div_mul, h]

/-- **The digit of a key at a node**, if the key has the leading bits of the node. -/
theorem xor_shift_lt_two :
    (a ^^^ c) / 2 ^ m < 2 ↔ a / 2 ^ (m + 1) = c / 2 ^ (m + 1) := by
  have hdiv : (a ^^^ c) / 2 ^ m / 2 = (a / 2 ^ (m + 1)) ^^^ (c / 2 ^ (m + 1)) := by
    rw [← div_two_pow_succ, xor_div_two_pow]
  rw [← Nat.xor_eq_zero_iff, ← hdiv]
  omega

theorem xor_shift_eq (hc : 2 ^ (m + 1) ∣ c) (h : a / 2 ^ (m + 1) = c / 2 ^ (m + 1)) :
    (a ^^^ c) / 2 ^ m = (a.testBit m).toNat := by
  have hbit : c.testBit m = false := by
    obtain ⟨k, rfl⟩ := hc
    rw [Nat.testBit_two_pow_mul]
    simp
  have hx := div_two_pow_eq (a ^^^ c) m
  rw [xor_div_two_pow a c (m + 1), h, Nat.xor_self, Nat.testBit_xor, hbit, Bool.xor_false] at hx
  omega

/-- **The highest bit** where two numbers differ. -/
theorem log2_xor (hab : a ≠ b) : a / 2 ^ ((a ^^^ b).log2 + 1) = b / 2 ^ ((a ^^^ b).log2 + 1) ∧
    b.testBit (a ^^^ b).log2 = !a.testBit (a ^^^ b).log2 := by
  have hne : a ^^^ b ≠ 0 := fun h => hab (Nat.xor_eq_zero_iff.mp h)
  generalize hm : (a ^^^ b).log2 = m
  obtain ⟨hle, hlt⟩ := (Nat.log2_eq_iff hne).mp hm
  constructor
  · rw [← Nat.xor_eq_zero_iff, ← xor_div_two_pow]
    exact Nat.div_eq_of_lt hlt
  · have hbit : (a ^^^ b).testBit m = true := by
      have h1 : (a ^^^ b) / 2 ^ m = 1 := by
        rw [pow_succ] at hlt
        exact Nat.div_eq_of_lt_le (by omega) (by omega)
      rw [Nat.testBit_eq_decide_div_mod_eq, h1]
      rfl
    rw [Nat.testBit_xor] at hbit
    revert hbit
    cases a.testBit m <;> cases b.testBit m <;> simp

theorem log2_xor_lt (hab : a ≠ b) (h : a / 2 ^ d = b / 2 ^ d) : (a ^^^ b).log2 < d := by
  have hne : a ^^^ b ≠ 0 := fun h => hab (Nat.xor_eq_zero_iff.mp h)
  rw [Nat.log2_lt hne]
  have hdiv : (a ^^^ b) / 2 ^ d = 0 := by
    rw [xor_div_two_pow, h, Nat.xor_self]
  exact (Nat.div_eq_zero_iff.mp hdiv).resolve_left (by positivity)

theorem le_log2_xor (h : a / 2 ^ d ≠ b / 2 ^ d) : d ≤ (a ^^^ b).log2 := by
  have hab : a ≠ b := fun hab => h (by rw [hab])
  by_contra hlt
  exact h (div_eq_of_le (by omega) (log2_xor hab).1)

end Bits

/-! ### Trees -/

inductive PTree (ν : Type*)
  | nil
  | leaf (p : ν) (key : ℕ)
  | node (p : ν) (key pos : ℕ) (l r : PTree ν)

variable {ν : Type*}

namespace PTree

/-- The node with the child `a` on the side `i` and `b` on the other. -/
def mk (i : Bool) (p : ν) (key pos : ℕ) (a b : PTree ν) : PTree ν :=
  match i with
  | false => node p key pos a b
  | true => node p key pos b a

/-- The child on a side. -/
def child (i : Bool) : PTree ν → PTree ν
  | node _ _ _ l r => if i then r else l
  | _ => nil

theorem node_eq_mk (i : Bool) (p : ν) (key pos : ℕ) (l r : PTree ν) :
    node p key pos l r = mk i p key pos ((node p key pos l r).child i) ((node p key pos l r).child !i) := by
  cases i <;> rfl

def keys : PTree ν → Finset ℕ
  | nil => ∅
  | leaf _ x => {x}
  | node _ _ _ l r => l.keys ∪ r.keys

/-- Where the nodes are. -/
def addresses : PTree ν → Multiset ν
  | nil => 0
  | leaf p _ => {p}
  | node p _ _ l r => p ::ₘ (l.addresses + r.addresses)

/-- **Well formed below the leading bits `q`** from bit `d` on. -/
def Wf : PTree ν → ℕ → ℕ → Prop
  | nil, _, _ => True
  | leaf _ x, q, d => x / 2 ^ d = q
  | node _ key pos l r, q, d => pos < d ∧ 2 ^ (pos + 1) ∣ key ∧ key / 2 ^ d = q ∧
      l.Wf (2 * (key / 2 ^ (pos + 1))) pos ∧ r.Wf (2 * (key / 2 ^ (pos + 1)) + 1) pos

/-- There are keys below every node. -/
def Full : PTree ν → Prop
  | nil => True
  | leaf _ _ => True
  | node _ _ _ l r => (l ≠ nil ∨ r ≠ nil) ∧ l.Full ∧ r.Full

variable {i : Bool} {p : ν} {key pos x q d : ℕ} {a b t : PTree ν}

@[simp] theorem mk_ne_nil : mk i p key pos a b ≠ nil := by cases i <;> exact nofun

@[simp] theorem keys_nil : (nil : PTree ν).keys = ∅ := rfl

@[simp] theorem keys_leaf : (leaf p x).keys = {x} := rfl

@[simp] theorem keys_mk : (mk i p key pos a b).keys = a.keys ∪ b.keys := by
  cases i
  · rfl
  · exact Finset.union_comm _ _

@[simp] theorem addresses_nil : (nil : PTree ν).addresses = 0 := rfl

@[simp] theorem addresses_leaf : (leaf p x).addresses = {p} := rfl

@[simp] theorem addresses_mk :
    (mk i p key pos a b).addresses = p ::ₘ (a.addresses + b.addresses) := by
  cases i
  · rfl
  · exact congrArg _ (add_comm _ _)

theorem wf_mk : (mk i p key pos a b).Wf q d ↔ pos < d ∧ 2 ^ (pos + 1) ∣ key ∧ key / 2 ^ d = q ∧
    a.Wf (2 * (key / 2 ^ (pos + 1)) + i.toNat) pos ∧
    b.Wf (2 * (key / 2 ^ (pos + 1)) + (!i).toNat) pos := by
  cases i
  · exact Iff.rfl
  · exact and_congr_right fun _ => and_congr_right fun _ => and_congr_right fun _ => and_comm

theorem full_mk : (mk i p key pos a b).Full ↔ (a ≠ nil ∨ b ≠ nil) ∧ a.Full ∧ b.Full := by
  cases i
  · exact Iff.rfl
  · exact and_congr or_comm and_comm

/-- **All keys have the leading bits.** -/
theorem Wf.div_eq : ∀ {t : PTree ν} {q d : ℕ}, t.Wf q d → ∀ x ∈ t.keys, x / 2 ^ d = q
  | nil, _, _, _, x, hx => absurd hx (Finset.notMem_empty x)
  | leaf _ _, _, _, h, x, hx => by
    rw [Finset.mem_singleton.mp hx]
    exact h
  | node _ key pos l r, q, d, h, x, hx => by
    obtain ⟨hpos, -, hq, hl, hr⟩ := h
    have hup : x / 2 ^ (pos + 1) = key / 2 ^ (pos + 1) := by
      rw [div_two_pow_succ x pos]
      rcases Finset.mem_union.mp hx with hx | hx
      · rw [hl.div_eq x hx]
        omega
      · rw [hr.div_eq x hx]
        omega
    rw [← hq]
    exact div_eq_of_le hpos hup

theorem Full.keys_nonempty : ∀ {t : PTree ν}, t.Full → t ≠ nil → t.keys.Nonempty
  | nil, _, hne => absurd rfl hne
  | leaf _ x, _, _ => ⟨x, Finset.mem_singleton_self x⟩
  | node _ _ _ l r, h, _ => by
    obtain ⟨hl | hr, hfl, hfr⟩ := h
    · exact (hfl.keys_nonempty hl).mono Finset.subset_union_left
    · exact (hfr.keys_nonempty hr).mono Finset.subset_union_right

end PTree

/-! ### Contexts -/

/-- A node with the child on the side `dir` taken out. -/
structure Frame (ν : Type*) where
  p : ν
  key : ℕ
  pos : ℕ
  dir : Bool
  sib : PTree ν

abbrev Ctx (ν : Type*) := List (Frame ν)

/-- The node, with the child put in. -/
def Frame.tree (f : Frame ν) (t : PTree ν) : PTree ν := .mk f.dir f.p f.key f.pos t f.sib

/-- The leading bits on a side of the node. -/
def Frame.pre (f : Frame ν) (i : Bool) : ℕ := 2 * (f.key / 2 ^ (f.pos + 1)) + i.toNat

namespace Ctx

def fill : Ctx ν → PTree ν → PTree ν
  | [], t => t
  | f :: Z, t => fill Z (f.tree t)

/-- The leading bits of the keys in the hole. -/
def pre : Ctx ν → ℕ
  | [] => 0
  | f :: _ => f.pre f.dir

/-- The bits that the keys in the hole can differ in. -/
def depth (D : ℕ) : Ctx ν → ℕ
  | [] => D
  | f :: _ => f.pos

def keys : Ctx ν → Finset ℕ
  | [] => ∅
  | f :: Z => f.sib.keys ∪ keys Z

def addresses : Ctx ν → Multiset ν
  | [] => 0
  | f :: Z => f.p ::ₘ (f.sib.addresses + addresses Z)

/-- The context of a well-formed tree for keys below `2 ^ D`. -/
def Wf (D : ℕ) : Ctx ν → Prop
  | [] => True
  | f :: Z => f.pos < depth D Z ∧ 2 ^ (f.pos + 1) ∣ f.key ∧ f.key / 2 ^ depth D Z = pre Z ∧
      f.sib.Wf (f.pre !f.dir) f.pos ∧ Wf D Z

def Full : Ctx ν → Prop
  | [] => True
  | f :: Z => f.sib.Full ∧ Full Z

/-- What is left when the hole stays empty: the nodes without keys are removed. -/
def prune : Ctx ν → PTree ν
  | [] => .nil
  | f :: Z => match f.sib with
    | .nil => prune Z
    | _ => fill (f :: Z) .nil

variable {D x : ℕ} {Z : Ctx ν} {t : PTree ν}

theorem keys_fill : ∀ {Z : Ctx ν} {t : PTree ν}, (fill Z t).keys = Z.keys ∪ t.keys
  | [], t => (Finset.empty_union _).symm
  | f :: Z, t => by
    rw [fill, keys_fill, Frame.tree, PTree.keys_mk, keys, Finset.union_comm t.keys,
      ← Finset.union_assoc, Finset.union_comm f.sib.keys]

theorem addresses_fill : ∀ {Z : Ctx ν} {t : PTree ν},
    (fill Z t).addresses = Z.addresses + t.addresses
  | [], t => (zero_add _).symm
  | f :: Z, t => by
    rw [fill, addresses_fill, Frame.tree, PTree.addresses_mk, addresses, Multiset.cons_add,
      Multiset.add_cons]
    congr 1
    abel

/-- **A context and what its hole holds** are well formed one by one. -/
theorem wf_fill : ∀ {Z : Ctx ν} {t : PTree ν},
    (fill Z t).Wf 0 D ↔ Z.Wf D ∧ t.Wf Z.pre (Z.depth D)
  | [], t => (and_iff_right trivial).symm
  | f :: Z, t => by
    rw [fill, wf_fill, Frame.tree, PTree.wf_mk]
    constructor
    · rintro ⟨hZ, h1, h2, h3, h4, h5⟩
      exact ⟨⟨h1, h2, h3, h5, hZ⟩, h4⟩
    · rintro ⟨⟨h1, h2, h3, h5, hZ⟩, h4⟩
      exact ⟨hZ, h1, h2, h3, h4, h5⟩

theorem full_fill : ∀ {Z : Ctx ν} {t : PTree ν}, t ≠ .nil →
    ((fill Z t).Full ↔ Z.Full ∧ t.Full)
  | [], t, _ => (and_iff_right trivial).symm
  | f :: Z, t, ht => by
    rw [fill, full_fill (by exact PTree.mk_ne_nil), Frame.tree, PTree.full_mk]
    constructor
    · rintro ⟨hZ, -, h1, h2⟩
      exact ⟨⟨h2, hZ⟩, h1⟩
    · rintro ⟨⟨h2, hZ⟩, h1⟩
      exact ⟨hZ, Or.inl ht, h1, h2⟩

theorem Full.of_fill : ∀ {Z : Ctx ν} {t : PTree ν}, (fill Z t).Full → Z.Full
  | [], _, _ => trivial
  | f :: Z, t, h => by
    have hne : f.tree t ≠ .nil := PTree.mk_ne_nil
    obtain ⟨hZ, hf⟩ := (full_fill hne).mp h
    exact ⟨(PTree.full_mk.mp hf).2.2, hZ⟩

/-- **No other key** has the leading bits of the hole. -/
theorem Wf.div_ne : ∀ {Z : Ctx ν}, Z.Wf D → ∀ x ∈ Z.keys, x / 2 ^ Z.depth D ≠ Z.pre
  | [], _, x, hx => absurd hx (Finset.notMem_empty x)
  | f :: Z, h, x, hx => by
    obtain ⟨hpos, -, hpre, hsib, hZ⟩ := h
    show x / 2 ^ f.pos ≠ f.pre f.dir
    rcases Finset.mem_union.mp hx with hx | hx
    · rw [hsib.div_eq x hx]
      unfold Frame.pre
      cases f.dir <;> simp
    · intro heq
      refine hZ.div_ne x hx ?_
      have hlt : f.dir.toNat < 2 := Bool.toNat_lt f.dir
      have hup : x / 2 ^ (f.pos + 1) = f.key / 2 ^ (f.pos + 1) := by
        rw [div_two_pow_succ x, heq, Frame.pre]
        omega
      rw [← hpre]
      exact div_eq_of_le hpos hup

theorem Wf.length_add_depth_le : ∀ {Z : Ctx ν}, Z.Wf D → Z.length + Z.depth D ≤ D
  | [], _ => (Nat.zero_add D).le
  | f :: Z, h => by
    obtain ⟨hpos, -, -, -, hZ⟩ := h
    have hle := hZ.length_add_depth_le
    rw [List.length_cons]
    show Z.length + 1 + f.pos ≤ D
    omega

/-- A key with the leading bits of the hole is small enough. -/
theorem Wf.lt_two_pow : ∀ {Z : Ctx ν}, Z.Wf D → x / 2 ^ Z.depth D = Z.pre → x < 2 ^ D
  | [], _, hx => (Nat.div_eq_zero_iff.mp hx).resolve_left (by positivity)
  | f :: Z, h, hx => by
    obtain ⟨hpos, -, hpre, -, hZ⟩ := h
    have hx' : x / 2 ^ f.pos = 2 * (f.key / 2 ^ (f.pos + 1)) + f.dir.toNat := hx
    have hup : x / 2 ^ (f.pos + 1) = f.key / 2 ^ (f.pos + 1) := by
      have := Bool.toNat_lt f.dir
      rw [div_two_pow_succ x, hx']
      omega
    exact hZ.lt_two_pow ((div_eq_of_le hpos hup).trans hpre)

/-- A key with the leading bits of the hole is in the tree iff it is in the hole. -/
theorem Wf.mem_fill (h : Z.Wf D) (hx : x / 2 ^ Z.depth D = Z.pre) :
    x ∈ (fill Z t).keys ↔ x ∈ t.keys := by
  rw [keys_fill, Finset.mem_union]
  exact or_iff_right fun hmem => h.div_ne x hmem hx

/-! ### Removal -/

theorem prune_nil (f : Frame ν) (Z : Ctx ν) (h : f.sib = .nil) : prune (f :: Z) = prune Z := by
  rw [prune, h]

theorem prune_of_ne (f : Frame ν) (Z : Ctx ν) (h : f.sib ≠ .nil) :
    prune (f :: Z) = fill (f :: Z) .nil := by
  rw [prune]
  split
  · exact absurd ‹_› h
  · rfl

theorem keys_prune : ∀ {Z : Ctx ν}, Z.prune.keys = Z.keys
  | [] => rfl
  | f :: Z => by
    by_cases hs : f.sib = .nil
    · rw [prune_nil f Z hs, keys_prune, keys, hs, PTree.keys_nil, Finset.empty_union]
    · rw [prune_of_ne f Z hs, keys_fill, PTree.keys_nil, Finset.union_empty]

theorem Wf.prune : ∀ {Z : Ctx ν}, Z.Wf D → Z.prune.Wf 0 D
  | [], _ => trivial
  | f :: Z, h => by
    by_cases hs : f.sib = .nil
    · rw [prune_nil f Z hs]
      exact h.2.2.2.2.prune
    · rw [prune_of_ne f Z hs]
      exact wf_fill.mpr ⟨h, trivial⟩

theorem Full.prune : ∀ {Z : Ctx ν}, Z.Full → Z.prune.Full
  | [], _ => trivial
  | f :: Z, h => by
    by_cases hs : f.sib = .nil
    · rw [prune_nil f Z hs]
      exact h.2.prune
    · rw [prune_of_ne f Z hs, fill, full_fill (by exact PTree.mk_ne_nil), Frame.tree, PTree.full_mk]
      exact ⟨h.2, Or.inr hs, trivial, h.1⟩

end Ctx

/-! ### Insertion -/

namespace PTree

/-- The key of the topmost node. -/
def key : PTree ν → ℕ
  | nil => 0
  | leaf _ x => x
  | node _ k _ _ _ => k

/-- A new key above a tree, at the highest bit where it differs from the key of the tree. -/
def split (l p : ν) (x : ℕ) (t : PTree ν) : PTree ν :=
  let m := (x ^^^ t.key).log2
  mk (x.testBit m) p (x / 2 ^ (m + 1) * 2 ^ (m + 1)) m (leaf l x) t

/-- The key leaves the tree at its topmost node. -/
def Misses (x : ℕ) : PTree ν → Prop
  | nil => False
  | leaf _ y => x ≠ y
  | node _ k pos _ _ => x / 2 ^ (pos + 1) ≠ k / 2 ^ (pos + 1)

variable {l p : ν} {x q d m : ℕ} {t : PTree ν}

/-- The search for a key ends at the tree: it is empty, a leaf, or lacks the leading bits. -/
def Ends (x : ℕ) (t : PTree ν) : Prop := t = nil ∨ t.Misses x ∨ ∃ p, t = leaf p x

theorem Misses.notMem (h : t.Misses x) (hwf : t.Wf q d) : x ∉ t.keys := by
  cases t with
  | nil => exact Finset.notMem_empty x
  | leaf p y => exact fun hmem => h (Finset.mem_singleton.mp hmem)
  | node p k pos a b =>
    obtain ⟨-, -, -, ha, hb⟩ := hwf
    refine fun hmem => h ?_
    rw [div_two_pow_succ x pos]
    rcases Finset.mem_union.mp hmem with hmem | hmem
    · rw [ha.div_eq x hmem]
      omega
    · rw [hb.div_eq x hmem]
      omega

theorem Misses.ne_key (h : t.Misses x) : x ≠ t.key := by
  cases t with
  | nil => exact h.elim
  | leaf p y => exact h
  | node p k pos a b => exact fun heq => h (by rw [heq]; rfl)

/-- A tree is well formed below more of its leading bits as well. -/
theorem Wf.lower (h : t.Wf q d) (hx : t.Misses x) {q' : ℕ} (hm : m = (x ^^^ t.key).log2)
    (hq : t.key / 2 ^ m = q') : t.Wf q' m := by
  cases t with
  | nil => trivial
  | leaf p y => exact hq
  | node p k pos a b =>
    obtain ⟨-, h2, -, h4, h5⟩ := h
    have hle : pos + 1 ≤ m := hm ▸ le_log2_xor hx
    exact ⟨hle, h2, hq, h4, h5⟩

theorem Wf.split (h : t.Wf q d) (hx : t.Misses x) (hq : x / 2 ^ d = q) :
    (t.split l p x).Wf q d := by
  have hne := hx.ne_key
  have hkey : t.key / 2 ^ d = q := by
    cases t with
    | nil => exact hx.elim
    | leaf p y => exact h
    | node p k pos a b => exact h.2.2.1
  obtain ⟨hup, hbit⟩ := log2_xor hne
  have hlt : (x ^^^ t.key).log2 < d := log2_xor_lt hne (hq.trans hkey.symm)
  unfold PTree.split
  generalize hm : (x ^^^ t.key).log2 = m at hup hbit hlt
  have hdiv : x / 2 ^ (m + 1) * 2 ^ (m + 1) / 2 ^ (m + 1) = x / 2 ^ (m + 1) :=
    Nat.mul_div_cancel _ (by positivity)
  dsimp only
  rw [wf_mk, hdiv]
  refine ⟨hlt, Dvd.intro_left _ rfl, ?_, (div_two_pow_eq x m), h.lower hx hm.symm ?_⟩
  · rw [← hq]
    exact div_eq_of_le hlt hdiv
  · rw [div_two_pow_eq t.key m, hup, hbit]

theorem Full.split (h : t.Full) : (t.split l p x).Full :=
  full_mk.mpr ⟨Or.inl nofun, trivial, h⟩

theorem keys_split : (t.split l p x).keys = insert x t.keys := by
  unfold PTree.split
  rw [keys_mk, keys_leaf, Finset.insert_eq]

end PTree

end HardStack.Lib.Patricia
