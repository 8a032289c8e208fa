import HardStack.Lib.Trie

/-! # A cursor in a trie

A walk over a trie stands at a slot of a cell, or past the last slot (`2 ^ b`). Its position is the
first index from there on (`pos`). Climbing from the end of a cell to the next slot of the parent, and
descending to the first slot of a child, leave the position as it is; the next slot moves it on. The
cost of what is left (`cost`) falls with each of these steps, so a walk made of them ends. -/

namespace HardStack.Lib.Trie

variable {ν α : Type*} {b : ℕ} {T : Store ν α}

/-- The first index of a slot. -/
def pos (b : ℕ) (T : Store ν α) (n : ν) (o : ℕ) : ℕ :=
  ((T.cell n).pre * 2 ^ b + o) * 2 ^ (T.cell n).shift

theorem pos_add (n : ν) (o k : ℕ) :
    pos b T n (o + k) = pos b T n o + k * 2 ^ (T.cell n).shift := by
  unfold pos
  ring

theorem pos_mono (n : ν) {o o' : ℕ} (h : o ≤ o') : pos b T n o ≤ pos b T n o' :=
  Nat.mul_le_mul_right _ (Nat.add_le_add_left h _)

theorem pos_lt (n : ν) {o o' : ℕ} (h : o < o') : pos b T n o < pos b T n o' :=
  Nat.mul_lt_mul_of_pos_right (Nat.add_lt_add_left h _) (by positivity)

/-- The digits of an index from the position of one slot on and before that of the next. -/
theorem digits_of_pos {n : ν} {o i : ℕ} (ho : o < 2 ^ b) (h1 : pos b T n o ≤ i)
    (h2 : i < pos b T n (o + 1)) : i / 2 ^ (T.cell n).shift % 2 ^ b = o ∧
      (T.cell n).pre = i / 2 ^ ((T.cell n).shift + b) := by
  have hdiv : i / 2 ^ (T.cell n).shift = (T.cell n).pre * 2 ^ b + o := by
    refine Nat.div_eq_of_lt_le h1 ?_
    unfold pos at h2
    rw [Nat.add_assoc]
    exact h2
  refine ⟨by rw [hdiv, Nat.mul_add_mod_of_lt ho], ?_⟩
  rw [pow_add, ← Nat.div_div_eq_div_mul, hdiv, digit_div ho]

/-- The end of a cell that starts at a word of `w` bits is a word, or the first number after the words,
or it wraps to zero. -/
theorem pos_end {n : ν} {w : ℕ} (h : pos b T n 0 < 2 ^ w) :
    pos b T n (2 ^ b) ≤ 2 ^ w ∨ pos b T n (2 ^ b) % 2 ^ w = 0 := by
  have hpos : pos b T n (2 ^ b) = ((T.cell n).pre + 1) * 2 ^ ((T.cell n).shift + b) := by
    unfold pos
    ring
  have hstart : pos b T n 0 = (T.cell n).pre * 2 ^ ((T.cell n).shift + b) := by
    unfold pos
    ring
  rw [hstart] at h
  rw [hpos]
  by_cases hs : (T.cell n).shift + b ≤ w
  · left
    have hlt : (T.cell n).pre < 2 ^ (w - ((T.cell n).shift + b)) := by
      refine lt_of_mul_lt_mul_right ?_ (Nat.zero_le (2 ^ ((T.cell n).shift + b)))
      rwa [← pow_add, Nat.sub_add_cancel hs]
    calc ((T.cell n).pre + 1) * 2 ^ ((T.cell n).shift + b)
        ≤ 2 ^ (w - ((T.cell n).shift + b)) * 2 ^ ((T.cell n).shift + b) := Nat.mul_le_mul_right _ hlt
      _ = 2 ^ w := by rw [← pow_add, Nat.sub_add_cancel hs]
  · right
    exact Nat.mod_eq_zero_of_dvd ((Nat.pow_dvd_pow 2 (by omega)).trans (Nat.dvd_mul_left _ _))

/-- Every index between two slots of a cell is at one of the slots. -/
theorem exists_slot {n : ν} {o i : ℕ} (h1 : pos b T n o ≤ i) : ∀ {o' : ℕ}, i < pos b T n o' →
    ∃ d, o ≤ d ∧ d < o' ∧ pos b T n d ≤ i ∧ i < pos b T n (d + 1) := by
  intro o'
  induction o' with
  | zero => exact fun h2 => absurd (h1.trans_lt h2) (not_lt.mpr (pos_mono n (Nat.zero_le o)))
  | succ o' ih =>
    intro h2
    by_cases h : i < pos b T n o'
    · obtain ⟨d, hd, hlt, hle⟩ := ih h
      exact ⟨d, hd, by omega, hle⟩
    · refine ⟨o', ?_, Nat.lt_succ_self o', not_lt.mp h, h2⟩
      by_contra hlt
      exact absurd (h1.trans_lt h2) (not_lt.mpr (pos_mono n (by omega)))

/-- An index lies at the slot that its digits name. -/
theorem pos_of_digits {n : ν} {i : ℕ} (h : (T.cell n).pre = i / 2 ^ ((T.cell n).shift + b)) :
    pos b T n (i / 2 ^ (T.cell n).shift % 2 ^ b) ≤ i ∧
      i < pos b T n (i / 2 ^ (T.cell n).shift % 2 ^ b + 1) := by
  have hdiv : i / 2 ^ (T.cell n).shift =
      (T.cell n).pre * 2 ^ b + i / 2 ^ (T.cell n).shift % 2 ^ b := by
    rw [h, pow_add, ← Nat.div_div_eq_div_mul]
    exact (Nat.div_add_mod' _ _).symm
  unfold pos
  constructor
  · rw [← hdiv]
    exact Nat.div_mul_le_self _ _
  · rw [← Nat.add_assoc, ← hdiv]
    exact Nat.lt_mul_of_div_lt (Nat.lt_succ_self _) (by positivity)

namespace Wf

variable {n m p r : ν} {o : ℕ}

theorem pos_climb (h : Wf b T) (hn : n ∈ T.live) (hp : (T.cell n).parent = some p) :
    pos b T p ((T.cell n).offset + 1) = pos b T n (2 ^ b) := by
  obtain ⟨-, -, -, hs, hpre⟩ := h.up n hn p hp
  unfold pos
  rw [hs, hpre, pow_add]
  ring

theorem pos_child (h : Wf b T) (hn : n ∈ T.live) (ho : o < 2 ^ b)
    (hm : (T.cell n).slot o = .node m) : pos b T m 0 = pos b T n o := by
  obtain ⟨-, hs, hpre⟩ := h.child hn ho hm
  unfold pos
  rw [hs, hpre, pow_add]
  ring

/-- An item is at the position of its slot. -/
theorem holds_pos (h : Wf b T) (hn : n ∈ T.live) (ho : o < 2 ^ b) {a : α}
    (ha : (T.cell n).slot o = .item a) : Holds b T (pos b T n o) a := by
  obtain ⟨hd, hp⟩ := digits_of_pos ho le_rfl (pos_lt n (Nat.lt_succ_self o))
  exact h.find_item hn hp (by rw [hd]; exact ha)

/-- An empty slot has no content up to the next slot. -/
theorem not_holds_empty (h : Wf b T) (hb : 0 < b) (hn : n ∈ T.live) (ho : o < 2 ^ b)
    (he : (T.cell n).slot o = .empty) {i : ℕ} (h1 : pos b T n o ≤ i) (h2 : i < pos b T n (o + 1))
    (a : α) : ¬ Holds b T i a := by
  obtain ⟨hd, hp⟩ := digits_of_pos ho h1 h2
  exact h.find_empty hb hn hp (by rw [hd]; exact he) a

/-- There is nothing after the end of the cell at the top. -/
theorem not_holds_end (h : Wf b T) (hb : 0 < b) (hn : n ∈ T.live) (hp : (T.cell n).parent = none)
    {i : ℕ} (hi : pos b T n (2 ^ b) ≤ i) (a : α) : ¬ Holds b T i a := by
  intro ha
  obtain ⟨hr, hpre, -⟩ := h.top n hn hp
  have hlt := h.lt_of_holds hb hr ha
  unfold pos at hi
  rw [hpre, zero_mul, zero_add, ← pow_add, Nat.add_comm] at hi
  omega

/-- No position lies beyond the end of the cell at the top. -/
theorem pos_le_top (h : Wf b T) (hb : 0 < b) (hr : T.root = .node r) (hn : n ∈ T.live)
    (ho : o ≤ 2 ^ b) : pos b T n o ≤ 2 ^ ((T.cell r).shift + b) := by
  refine (pos_mono n ho).trans ?_
  refine h.climb hb (P := fun n => pos b T n (2 ^ b) ≤ 2 ^ ((T.cell r).shift + b)) ?_ ?_ n hn
  · intro n hn hp
    obtain ⟨hroot, hpre, -⟩ := h.top n hn hp
    rw [hr] at hroot
    cases hroot
    unfold pos
    rw [hpre, zero_mul, zero_add, ← pow_add, Nat.add_comm]
  · intro n hn p hpl hp hle
    obtain ⟨-, hoff, -⟩ := h.up n hn p hp
    rw [← h.pos_climb hn hp]
    exact (pos_mono p hoff).trans hle

end Wf

/-! ### The cost of a walk -/

/-- What is left of a walk, where `s` is the largest width: the indices from the position on, then
the climb or the descent at the position. -/
def cost (b : ℕ) (T : Store ν α) (s : ℕ) (n : ν) (o : ℕ) : ℕ :=
  (2 ^ (s + b) - pos b T n o) * (2 * s + 3) +
    if o = 2 ^ b then 2 * (s + 1) - (T.cell n).shift else (T.cell n).shift

/-- The cost of a whole walk. -/
def totalCost (b s : ℕ) : ℕ := 2 ^ (s + b) * (2 * s + 3) + 2 * (s + 1)

namespace Wf

variable {n m p r : ν} {o o' : ℕ}

theorem shift_le (h : Wf b T) (hb : 0 < b) (hr : T.root = .node r) (hn : n ∈ T.live) :
    (T.cell n).shift ≤ (T.cell r).shift := by
  obtain ⟨r', hr', -, hle⟩ := h.exists_root hb n hn
  rw [hr] at hr'
  cases hr'
  exact hle

theorem cost_le (h : Wf b T) (hb : 0 < b) (hr : T.root = .node r) (hn : n ∈ T.live) (o : ℕ) :
    cost b T (T.cell r).shift n o ≤ totalCost b (T.cell r).shift := by
  have hle := h.shift_le hb hr hn
  have hmul := Nat.mul_le_mul_right (2 * (T.cell r).shift + 3)
    (Nat.sub_le (2 ^ ((T.cell r).shift + b)) (pos b T n o))
  unfold cost totalCost
  split <;> omega

theorem cost_climb (h : Wf b T) (hb : 0 < b) (hr : T.root = .node r) (hn : n ∈ T.live)
    (hp : (T.cell n).parent = some p) :
    cost b T (T.cell r).shift p ((T.cell n).offset + 1) < cost b T (T.cell r).shift n (2 ^ b) := by
  obtain ⟨hpl, hoff, -, hs, -⟩ := h.up n hn p hp
  have hle := h.shift_le hb hr hpl
  unfold cost
  rw [h.pos_climb hn hp, if_pos rfl]
  refine Nat.add_lt_add_left ?_ _
  split <;> omega

theorem cost_child (h : Wf b T) (hb : 0 < b) (s : ℕ) (hn : n ∈ T.live) (ho : o < 2 ^ b)
    (hm : (T.cell n).slot o = .node m) (ho' : o' < 2 ^ b) : cost b T s m o' < cost b T s n o := by
  obtain ⟨-, hs, -⟩ := h.child hn ho hm
  have hle : pos b T n o ≤ pos b T m o' := by
    rw [← h.pos_child hn ho hm]
    exact pos_mono m (Nat.zero_le o')
  have hmul := Nat.mul_le_mul_right (2 * s + 3) (Nat.sub_le_sub_left hle (2 ^ (s + b)))
  unfold cost
  rw [if_neg (by omega), if_neg (by omega)]
  omega

theorem cost_next (h : Wf b T) (hb : 0 < b) (hr : T.root = .node r) (hn : n ∈ T.live)
    (hlt : o < o') (ho : o' ≤ 2 ^ b) :
    cost b T (T.cell r).shift n o' < cost b T (T.cell r).shift n o := by
  have hle := h.shift_le hb hr hn
  have hpos : pos b T n o < pos b T n o' := pos_lt n hlt
  have htop := h.pos_le_top hb hr hn ho
  obtain ⟨left, hleft⟩ : ∃ left, 2 ^ ((T.cell r).shift + b) - pos b T n o =
      2 ^ ((T.cell r).shift + b) - pos b T n o' + (left + 1) := by
    refine ⟨pos b T n o' - pos b T n o - 1, ?_⟩
    omega
  have hmul : (left + 1) * (2 * (T.cell r).shift + 3) ≥ 1 * (2 * (T.cell r).shift + 3) :=
    Nat.mul_le_mul_right _ (by omega)
  unfold cost
  rw [hleft, Nat.add_mul, if_neg (show o ≠ 2 ^ b by omega)]
  split <;> omega

end Wf

/-! ### What a walk lists -/

/-- All pairs of an index and its item from `lo` on, in order of the indices. -/
structure Enumerates (has : ℕ → α → Prop) (lo : ℕ) (l : List (ℕ × α)) : Prop where
  sorted : l.Pairwise fun p q => p.1 < q.1
  mem : ∀ i a, (i, a) ∈ l ↔ lo ≤ i ∧ has i a

namespace Enumerates

variable {has : ℕ → α → Prop} {lo : ℕ} {l : List (ℕ × α)}

theorem nil (hno : ∀ i a, lo ≤ i → ¬ has i a) : Enumerates has lo [] := by
  refine ⟨.nil, fun i a => ⟨fun h => absurd h List.not_mem_nil, ?_⟩⟩
  rintro ⟨hle, h⟩
  exact absurd h (hno i a hle)

theorem cons {i : ℕ} {a : α} (hlo : lo ≤ i) (h : ∀ b, has i b ↔ a = b)
    (hno : ∀ j b, lo ≤ j → j < i → ¬ has j b) (hl : Enumerates has (i + 1) l) :
    Enumerates has lo ((i, a) :: l) := by
  refine ⟨List.pairwise_cons.mpr ⟨fun q hq => ((hl.mem q.1 q.2).mp hq).1, hl.sorted⟩, fun j b => ?_⟩
  rw [List.mem_cons, hl.mem]
  constructor
  · rintro (heq | ⟨hle, hb⟩)
    · cases heq
      exact ⟨hlo, (h a).mpr rfl⟩
    · exact ⟨by omega, hb⟩
  · rintro ⟨hle, hb⟩
    rcases Nat.lt_trichotomy j i with hlt | rfl | hgt
    · exact absurd hb (hno j b hle hlt)
    · exact Or.inl (by rw [(h b).mp hb])
    · exact Or.inr ⟨hgt, hb⟩

end Enumerates

end HardStack.Lib.Trie
