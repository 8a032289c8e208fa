import Mathlib

/-! # Dyadic blocks

A block of order `o` is the range of `2 ^ o` numbers from its head. The buddy of an aligned block is
the block with bit `o` of its head flipped, and the two together are the aligned block of order
`o + 1` at the smaller head. A list of blocks is counted pointwise: `mult L q` is the number of
blocks of `L` that contain `q`, so that splitting and merging are additions, and `Tiles lo hi L`
(every number of the range is counted once, every other number not at all) is a linear equation. -/

namespace HardStack.Lib.Dyadic

/-! ### Bits -/

theorem two_mul_xor_one (k : ℕ) : (2 * k) ^^^ 1 = 2 * k + 1 := by
  simp

theorem two_mul_add_one_xor_one (k : ℕ) : (2 * k + 1) ^^^ 1 = 2 * k := by
  have h := Nat.xor_bit true k true 0
  simpa [Nat.bit] using h

theorem two_mul_and (k : ℕ) : (2 * k) &&& (2 * k + 1) = 2 * k := by
  have h := Nat.land_bit false k true k
  simpa [Nat.bit] using h

theorem two_pow_mul_xor (m o : ℕ) : (2 ^ o * m) ^^^ (1 <<< o) = 2 ^ o * (m ^^^ 1) := by
  have h := Nat.shiftLeft_xor_distrib (a := m) (b := 1) (i := o)
  simp only [Nat.shiftLeft_eq] at h ⊢
  rw [mul_comm (2 ^ o) m, ← h, mul_comm]

theorem two_pow_mul_and (m n o : ℕ) : (2 ^ o * m) &&& (2 ^ o * n) = 2 ^ o * (m &&& n) := by
  have h := Nat.shiftLeft_and_distrib (a := m) (b := n) (i := o)
  simp only [Nat.shiftLeft_eq] at h
  rw [mul_comm (2 ^ o) m, mul_comm (2 ^ o) n, ← h, mul_comm]

/-- A number whose low bits are clear. -/
theorem two_pow_dvd_of_testBit {w k : ℕ} (h : ∀ i < k, w.testBit i = false) : 2 ^ k ∣ w := by
  refine Nat.dvd_of_mod_eq_zero (Nat.eq_of_testBit_eq fun i => ?_)
  rw [Nat.testBit_mod_two_pow, Nat.zero_testBit]
  by_cases hi : i < k
  · simp [hi, h i hi]
  · simp [hi]

/-- Clearing the low `k` bits of an `n`-bit number. -/
theorem and_clear_low {x k n : ℕ} (hk : k ≤ n) (hx : x < 2 ^ n) :
    x &&& ((2 ^ n - 1) ^^^ (2 ^ k - 1)) = x / 2 ^ k * 2 ^ k := by
  refine Nat.eq_of_testBit_eq fun i => ?_
  rw [Nat.testBit_and, Nat.testBit_xor, Nat.testBit_two_pow_sub_one, Nat.testBit_two_pow_sub_one,
    Nat.testBit_mul_two_pow, Nat.testBit_div_two_pow]
  by_cases hik : i < k
  · simp [hik, show i < n by omega]
  · rw [Nat.sub_add_cancel (show k ≤ i by omega)]
    by_cases hi : i < n
    · simp [hik, hi, show k ≤ i by omega]
    · have hbit : x.testBit i = false :=
        Nat.testBit_lt_two_pow (hx.trans_le (Nat.pow_le_pow_right two_pos (by omega)))
      simp [hik, hbit]

/-- Two multiples of `2 ^ o` in the same block of order `o` are equal. -/
theorem eq_of_aligned {o p q : ℕ} (hp : 2 ^ o ∣ p) (hq : 2 ^ o ∣ q) (h1 : p ≤ q)
    (h2 : q < p + 2 ^ o) : p = q := by
  obtain ⟨a, rfl⟩ := hp
  obtain ⟨b, rfl⟩ := hq
  have hb : b < a + 1 := by
    refine Nat.lt_of_mul_lt_mul_left (a := 2 ^ o) ?_
    rw [mul_add, mul_one]; exact h2
  have ha : a ≤ b := Nat.le_of_mul_le_mul_left h1 (by positivity)
  rw [show a = b by omega]

/-! ### Buddies -/

/-- The buddy of an aligned head is the head one block up or one block down, and the common parent
is the smaller of the two. -/
theorem buddy_cases {p o : ℕ} (hp : 2 ^ o ∣ p) :
    (2 ^ (o + 1) ∣ p ∧ p ^^^ (1 <<< o) = p + 2 ^ o ∧ (p ^^^ (1 <<< o)) &&& p = p) ∨
    (2 ^ (o + 1) ∣ p - 2 ^ o ∧ 2 ^ o ≤ p ∧ p ^^^ (1 <<< o) = p - 2 ^ o ∧
      (p ^^^ (1 <<< o)) &&& p = p - 2 ^ o) := by
  obtain ⟨m, rfl⟩ := hp
  rcases Nat.even_or_odd' m with ⟨k, rfl | rfl⟩
  · left
    rw [two_pow_mul_xor, two_mul_xor_one, two_pow_mul_and, Nat.and_comm, two_mul_and]
    exact ⟨⟨k, by ring⟩, by ring, rfl⟩
  · right
    have hsub : 2 ^ o * (2 * k + 1) - 2 ^ o = 2 ^ o * (2 * k) := by
      rw [mul_add, mul_one, Nat.add_sub_cancel]
    rw [two_pow_mul_xor, two_mul_add_one_xor_one, two_pow_mul_and, two_mul_and, hsub]
    refine ⟨⟨k, by ring⟩, ?_, rfl, rfl⟩
    exact Nat.le_mul_of_pos_right _ (by omega)

theorem buddy_aligned {p o : ℕ} (hp : 2 ^ o ∣ p) : 2 ^ o ∣ p ^^^ (1 <<< o) := by
  obtain ⟨m, rfl⟩ := hp
  exact ⟨_, two_pow_mul_xor m o⟩

theorem buddy_ne (p o : ℕ) : p ^^^ (1 <<< o) ≠ p := by
  intro h
  have h1 : (1 <<< o : ℕ) = 0 := by
    have := congrArg (p ^^^ ·) h
    rwa [← Nat.xor_assoc, Nat.xor_self, Nat.zero_xor] at this
  rw [Nat.one_shiftLeft] at h1
  exact absurd h1 (by positivity)

theorem parent_aligned {p o : ℕ} (hp : 2 ^ o ∣ p) : 2 ^ (o + 1) ∣ (p ^^^ (1 <<< o)) &&& p := by
  rcases buddy_cases hp with ⟨h, -, he⟩ | ⟨h, -, -, he⟩ <;> rw [he] <;> exact h

/-! ### Blocks and their multiplicity -/

/-- A range of `2 ^ order` numbers from `head`. -/
structure Block where
  head : ℕ
  order : ℕ
  deriving DecidableEq, Repr

/-- The block contains the number. -/
def Block.Covers (b : Block) (q : ℕ) : Prop := b.head ≤ q ∧ q < b.head + 2 ^ b.order

instance (b : Block) (q : ℕ) : Decidable (b.Covers q) := by unfold Block.Covers; infer_instance

/-- The head of the block is a multiple of its size. -/
def Block.Aligned (b : Block) : Prop := 2 ^ b.order ∣ b.head

instance (b : Block) : Decidable b.Aligned := by unfold Block.Aligned; infer_instance

/-- Two blocks share no number. -/
def Block.Apart (b c : Block) : Prop := ∀ q, ¬ (b.Covers q ∧ c.Covers q)

/-- `1` on the block, `0` elsewhere. -/
def Block.ind (b : Block) (q : ℕ) : ℕ := if b.Covers q then 1 else 0

/-- How many blocks of the list contain `q`. -/
def mult (L : List Block) (q : ℕ) : ℕ := (L.map fun b => b.ind q).sum

@[simp] theorem mult_nil (q : ℕ) : mult [] q = 0 := rfl

@[simp] theorem mult_cons (b : Block) (L : List Block) (q : ℕ) :
    mult (b :: L) q = b.ind q + mult L q := by simp [mult]

@[simp] theorem mult_append (L M : List Block) (q : ℕ) :
    mult (L ++ M) q = mult L q + mult M q := by simp [mult]

theorem mult_perm {L M : List Block} (h : L.Perm M) (q : ℕ) : mult L q = mult M q :=
  (h.map _).sum_eq

theorem Block.covers_head (b : Block) : b.Covers b.head :=
  ⟨le_rfl, Nat.lt_add_of_pos_right (by positivity)⟩

theorem ind_eq_one {b : Block} {q : ℕ} (h : b.Covers q) : b.ind q = 1 := if_pos h

theorem ind_le_mult {b : Block} {L : List Block} (h : b ∈ L) (q : ℕ) : b.ind q ≤ mult L q := by
  obtain ⟨l, r, rfl⟩ := List.append_of_mem h
  rw [mult_append, mult_cons]; omega

theorem mult_pos {L : List Block} {q : ℕ} : 0 < mult L q ↔ ∃ b ∈ L, b.Covers q := by
  induction L with
  | nil => simp
  | cons b L ih =>
    rw [mult_cons]
    by_cases hb : b.Covers q
    · simp [Block.ind, hb]
    · simp [Block.ind, hb, ih]

theorem mult_erase {b : Block} {L : List Block} (h : b ∈ L) (q : ℕ) :
    mult L q = b.ind q + mult (L.erase b) q := by
  rw [mult_perm (List.perm_cons_erase h), mult_cons]

/-- **Splitting.** A block is its lower half and its upper half. -/
theorem ind_split (p o q : ℕ) :
    (Block.mk p (o + 1)).ind q = (Block.mk p o).ind q + (Block.mk (p + 2 ^ o) o).ind q := by
  have h2 : 2 ^ (o + 1) = 2 ^ o + 2 ^ o := by ring
  by_cases h : p ≤ q <;> by_cases h' : q < p + 2 ^ o <;>
    by_cases h'' : q < p + 2 ^ o + 2 ^ o <;>
    simp [Block.ind, Block.Covers, h2, ← add_assoc, h, h', h''] <;> omega

/-- **Merging.** An aligned block and its buddy are their parent. -/
theorem ind_merge {p o : ℕ} (hp : 2 ^ o ∣ p) (q : ℕ) :
    (Block.mk ((p ^^^ (1 <<< o)) &&& p) (o + 1)).ind q =
      (Block.mk p o).ind q + (Block.mk (p ^^^ (1 <<< o)) o).ind q := by
  rcases buddy_cases hp with ⟨-, hb, he⟩ | ⟨-, hle, hb, he⟩
  · rw [he, hb, ind_split]
  · rw [he, hb, ind_split, Nat.sub_add_cancel hle, add_comm]

/-- An aligned block of larger order that contains the buddy of `p` contains `p`. -/
theorem covers_of_buddy {p o : ℕ} (hp : 2 ^ o ∣ p) {b : Block} (hb : b.Aligned) (ho : o < b.order)
    (hc : b.Covers (p ^^^ (1 <<< o))) : b.Covers p := by
  obtain ⟨P, O⟩ := b
  obtain ⟨h1, h2⟩ := hc
  simp only [Block.Aligned] at *
  have hdvd : 2 ^ (o + 1) ∣ P := (pow_dvd_pow 2 ho).trans hb
  have hsz : 2 ^ (o + 1) ∣ P + 2 ^ O := Nat.dvd_add hdvd (pow_dvd_pow 2 ho)
  have h2o : 2 ^ (o + 1) = 2 ^ o + 2 ^ o := by ring
  have hpos : 0 < 2 ^ o := by positivity
  unfold Block.Covers
  simp only
  -- both halves of the parent lie on the same side of each end of the block
  rcases buddy_cases hp with ⟨hd, hbud, -⟩ | ⟨hd, hle, hbud, -⟩
  · rw [hbud] at h1 h2
    refine ⟨?_, by omega⟩
    by_contra hlt
    have := eq_of_aligned hd hdvd (by omega) (by omega)
    omega
  · rw [hbud] at h1 h2
    refine ⟨by omega, ?_⟩
    by_contra hge
    have := eq_of_aligned hd hsz (by omega) (by omega)
    omega

/-! ### Tilings -/

/-- Every number of `[lo, hi)` is in exactly one block of the list, every other number in none. -/
def Tiles (lo hi : ℕ) (L : List Block) : Prop :=
  ∀ q, mult L q = if lo ≤ q ∧ q < hi then 1 else 0

/-- The blocks of the list partition the range: no two overlap, and they cover it exactly. -/
structure Partition (lo hi : ℕ) (L : List Block) : Prop where
  disjoint : L.Pairwise Block.Apart
  covered : ∀ q, (lo ≤ q ∧ q < hi) ↔ ∃ b ∈ L, b.Covers q

theorem pairwise_apart {L : List Block} (h : ∀ q, mult L q ≤ 1) : L.Pairwise Block.Apart := by
  induction L with
  | nil => exact List.Pairwise.nil
  | cons b L ih =>
    have hL : ∀ q, mult L q ≤ 1 := fun q => by have := h q; rw [mult_cons] at this; omega
    refine List.Pairwise.cons (fun c hc q hq => ?_) (ih hL)
    have h1 := h q
    have h2 := ind_le_mult hc q
    rw [mult_cons, ind_eq_one hq.1] at h1
    rw [ind_eq_one hq.2] at h2
    omega

/-- **A tiling is a partition.** -/
theorem Tiles.partition {lo hi : ℕ} {L : List Block} (h : Tiles lo hi L) : Partition lo hi L := by
  refine ⟨pairwise_apart fun q => ?_, fun q => ?_⟩
  · rw [h q]; split_ifs <;> omega
  · rw [← mult_pos, h q]
    split_ifs with hq <;> simp [hq]

theorem Tiles.perm {lo hi : ℕ} {L M : List Block} (h : Tiles lo hi L) (hp : L.Perm M) :
    Tiles lo hi M := fun q => by rw [← mult_perm hp]; exact h q

/-- Two blocks at different places of a tiling do not meet. -/
theorem Tiles.not_both {lo hi : ℕ} {L M : List Block} (h : Tiles lo hi (L ++ M)) {b c : Block}
    (hb : b ∈ L) (hc : c ∈ M) {q : ℕ} (h1 : b.Covers q) (h2 : c.Covers q) : False := by
  have hq := h q
  have e1 := ind_le_mult hb q
  have e2 := ind_le_mult hc q
  rw [ind_eq_one h1] at e1
  rw [ind_eq_one h2] at e2
  rw [mult_append] at hq
  split_ifs at hq <;> omega

instance : Std.Symm Block.Apart := ⟨fun _ _ h q hq => h q hq.symm⟩

/-- A number lies in one block of a tiling only. -/
theorem Tiles.eq_of_covers {lo hi : ℕ} {L : List Block} (h : Tiles lo hi L) {b c : Block}
    (hb : b ∈ L) (hc : c ∈ L) {q : ℕ} (h1 : b.Covers q) (h2 : c.Covers q) : b = c := by
  by_contra hne
  exact h.partition.disjoint.forall hb hc hne q ⟨h1, h2⟩

/-- A number of the range lies in some block of its tiling. -/
theorem Tiles.exists_covers {lo hi : ℕ} {L : List Block} (h : Tiles lo hi L) {q : ℕ} (h1 : lo ≤ q)
    (h2 : q < hi) : ∃ b ∈ L, b.Covers q := (h.partition.covered q).mp ⟨h1, h2⟩

/-! ### Coalesced tilings -/

/-- Every number of `b` is one of `c`. -/
def Block.Within (b c : Block) : Prop := ∀ q, b.Covers q → c.Covers q

/-- No block of an order below `n - 1` is there together with its buddy. -/
def Coalesced (n : ℕ) (L : List Block) : Prop :=
  ∀ p o, o + 1 < n → ⟨p, o⟩ ∈ L → ⟨p ^^^ (1 <<< o), o⟩ ∉ L

/-- An aligned block of larger order that contains the head of a half contains the whole. -/
theorem within_of_covers {p o : ℕ} {c : Block} (hp : 2 ^ o ∣ p) (hc : c.Aligned) (ho : o ≤ c.order)
    (hcov : c.Covers p) : (Block.mk p o).Within c := by
  obtain ⟨P, O⟩ := c
  obtain ⟨h1, h2⟩ := hcov
  simp only [Block.Aligned] at *
  have hsz : 2 ^ o ∣ P + 2 ^ O := Nat.dvd_add ((pow_dvd_pow 2 ho).trans hc) (pow_dvd_pow 2 ho)
  have hend : p + 2 ^ o ≤ P + 2 ^ O := by
    by_contra hlt
    have := eq_of_aligned hp hsz (by omega) (by omega)
    omega
  rintro q ⟨hq1, hq2⟩
  unfold Block.Covers
  simp only at hq1 hq2 ⊢
  omega

/-- **In a coalesced tiling every aligned block of the range is inside one block of the tiling.** Of
its halves one lies in a larger block, or they are two buddies. -/
theorem Tiles.exists_within {lo hi n : ℕ} {L : List Block} (h : Tiles lo hi L)
    (hal : ∀ b ∈ L, b.Aligned) (hco : Coalesced n L) : ∀ {o p : ℕ}, o < n → 2 ^ o ∣ p → lo ≤ p →
    p + 2 ^ o ≤ hi → ∃ c ∈ L, o ≤ c.order ∧ (Block.mk p o).Within c
  | 0, p, _, _, hlo, hhi => by
    obtain ⟨c, hc, hcov⟩ := h.exists_covers hlo (by omega)
    exact ⟨c, hc, Nat.zero_le _, within_of_covers (by simp) (hal c hc) (Nat.zero_le _) hcov⟩
  | o + 1, p, ho, hp, hlo, hhi => by
    have h2 : 2 ^ (o + 1) = 2 ^ o + 2 ^ o := by ring
    have hp' : 2 ^ o ∣ p := (pow_dvd_pow 2 o.le_succ).trans hp
    obtain ⟨c, hc, hoc, hwc⟩ := h.exists_within hal hco (o := o) (p := p) (by omega) hp' hlo
      (by omega)
    obtain ⟨d, hd, hod, hwd⟩ := h.exists_within hal hco (o := o) (p := p + 2 ^ o) (by omega)
      (Nat.dvd_add hp' dvd_rfl) (by omega) (by omega)
    have hcp := hwc p (Block.covers_head ⟨p, o⟩)
    have hdp := hwd (p + 2 ^ o) (Block.covers_head ⟨p + 2 ^ o, o⟩)
    have hbud : p ^^^ (1 <<< o) = p + 2 ^ o := by
      rcases buddy_cases hp' with ⟨-, hb, -⟩ | ⟨hd', hle, -⟩
      · exact hb
      · have := eq_of_aligned hd' hp (by omega) (by omega)
        have : 0 < 2 ^ o := by positivity
        omega
    rcases Nat.lt_or_ge o c.order with hlt | hge
    · exact ⟨c, hc, hlt, within_of_covers hp (hal c hc) hlt hcp⟩
    rcases Nat.lt_or_ge o d.order with hlt | hge'
    · have hdp' : d.Covers p := covers_of_buddy hp' (hal d hd) hlt (by rw [hbud]; exact hdp)
      exact ⟨d, hd, hlt, within_of_covers hp (hal d hd) hlt hdp'⟩
    · -- both halves are blocks of the tiling
      have hhead : ∀ {x : ℕ} {e : Block}, 2 ^ o ∣ x → e ∈ L → e.order = o → e.Covers x →
          e = ⟨x, o⟩ := by
        rintro x ⟨e, eo⟩ hx he heo ⟨hx1, hx2⟩
        obtain rfl : eo = o := heo
        obtain rfl : e = x := eq_of_aligned (hal _ he) hx hx1 hx2
        rfl
      rw [hhead hp' hc (by omega) hcp] at hc
      rw [hhead (Nat.dvd_add hp' dvd_rfl) hd (by omega) hdp, ← hbud] at hd
      exact absurd hd (hco p o ho hc)

/-- **A range has one coalesced tiling only**: the blocks of two of them are the same. -/
theorem Tiles.mem_of_coalesced {lo hi n : ℕ} {L M : List Block} (hL : Tiles lo hi L)
    (hM : Tiles lo hi M) (halL : ∀ b ∈ L, b.Aligned ∧ b.order < n)
    (halM : ∀ b ∈ M, b.Aligned ∧ b.order < n) (hcoL : Coalesced n L) (hcoM : Coalesced n M)
    {b : Block} (hb : b ∈ L) : b ∈ M := by
  have hrange : ∀ {K : List Block} {c : Block}, Tiles lo hi K → c ∈ K →
      lo ≤ c.head ∧ c.head + 2 ^ c.order ≤ hi := by
    intro K c hK hc
    have hpos : 0 < 2 ^ c.order := by positivity
    have h1 := (hK.partition.covered c.head).mpr ⟨c, hc, c.covers_head⟩
    have h2 := (hK.partition.covered (c.head + 2 ^ c.order - 1)).mpr
      ⟨c, hc, ⟨by omega, by omega⟩⟩
    omega
  obtain ⟨hlo, hhi⟩ := hrange hL hb
  obtain ⟨c, hc, hoc, hwc⟩ := hM.exists_within (fun b hb => (halM b hb).1) hcoM (halL b hb).2
    (halL b hb).1 hlo hhi
  obtain ⟨hlo', hhi'⟩ := hrange hM hc
  obtain ⟨d, hd, hod, hwd⟩ := hL.exists_within (fun b hb => (halL b hb).1) hcoL (halM c hc).2
    (halM c hc).1 hlo' hhi'
  -- `b` lies in `c`, and `c` in a block of the tiling of `b`, which is `b` itself
  have hbd : b = d := hL.eq_of_covers hb hd b.covers_head (hwd _ (hwc _ b.covers_head))
  subst hbd
  have ho : c.order = b.order := by omega
  have hhead : b.head = c.head := by
    have h1 := hwc _ b.covers_head
    have h2 := hwd _ c.covers_head
    unfold Block.Covers at h1 h2
    omega
  have hbc : b = c := by
    cases b
    cases c
    simp_all
  exact hbc ▸ hc

/-! ### Lists of heads, one for each order -/

/-- The blocks whose heads stand in the lists `f o`, for the orders below `n`. -/
def blocksOf (n : ℕ) (f : ℕ → List ℕ) : List Block :=
  (List.range n).flatMap fun o => (f o).map fun p => ⟨p, o⟩

theorem mem_blocksOf {n : ℕ} {f : ℕ → List ℕ} {b : Block} :
    b ∈ blocksOf n f ↔ b.order < n ∧ b.head ∈ f b.order := by
  simp only [blocksOf, List.mem_flatMap, List.mem_range, List.mem_map]
  constructor
  · rintro ⟨o, ho, p, hp, rfl⟩; exact ⟨ho, hp⟩
  · rintro ⟨ho, hp⟩; exact ⟨b.order, ho, b.head, hp, rfl⟩

/-- Adding a head to one list adds one block. -/
theorem blocksOf_perm {n o p : ℕ} (ho : o < n) {f g : ℕ → List ℕ}
    (hg : (g o).Perm (p :: f o)) (hne : ∀ o', o' ≠ o → g o' = f o') :
    (blocksOf n g).Perm (⟨p, o⟩ :: blocksOf n f) := by
  obtain ⟨l, r, hlr⟩ := List.append_of_mem (List.mem_range.mpr ho)
  have hnd := hlr ▸ List.nodup_range (n := n)
  have hl : o ∉ l := fun h => (List.nodup_append.mp hnd).2.2 o h o (by simp) rfl
  have hr : o ∉ r := (List.nodup_cons.mp (List.nodup_append.mp hnd).2.1).1
  have hcongr : ∀ L : List ℕ, o ∉ L → (L.flatMap fun o => (g o).map fun p => Block.mk p o) =
      L.flatMap fun o => (f o).map fun p => Block.mk p o := by
    intro L hL
    refine List.flatMap_congr fun o' ho' => ?_
    rw [hne o' (fun h => hL (h ▸ ho'))]
  unfold blocksOf
  rw [hlr, List.flatMap_append, List.flatMap_append, List.flatMap_cons, List.flatMap_cons,
    hcongr l hl, hcongr r hr]
  refine ((((hg.map _).append_right _)).append_left _).trans ?_
  rw [List.map_cons, List.cons_append]
  exact List.perm_middle

end HardStack.Lib.Dyadic
