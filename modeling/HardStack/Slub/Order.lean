import Mathlib

/-! # The order of a slab

`slab_order` and `calculate_order` of `mm/slub.c`, in `unsigned int`s of 32 bits. The operations are
checked: a product that does not fit a word and a division by zero have no result. The `slub_`
parameters are the ones of the source, with four cpus. -/

namespace HardStack.Slub.Order

def PAGE_SHIFT : ℕ := 12
def PAGE_SIZE : ℕ := 4096
def MAX_ORDER : ℕ := 11
def PAGE_ALLOC_COSTLY_ORDER : ℕ := 3
def MAX_OBJS_PER_PAGE : ℕ := 32767
def slubMinOrder : ℕ := 0
def slubMaxOrder : ℕ := PAGE_ALLOC_COSTLY_ORDER
def slubMinObjects : ℕ := 0
def nrCpuIds : ℕ := 4

/-! ### Words -/

/-- `a * b`. -/
def mul (a b : ℕ) : Option ℕ := if a * b < 2 ^ 32 then some (a * b) else none

/-- `a / b`. -/
def div (a b : ℕ) : Option ℕ := if b = 0 then none else some (a / b)

/-- `a % b`. -/
def rem (a b : ℕ) : Option ℕ := if b = 0 then none else some (a % b)

/-- `a << order`. -/
def shl (a order : ℕ) : Option ℕ := mul a (2 ^ order)

/-- `a - 1`, which wraps. -/
def pred (a : ℕ) : ℕ := (a + (2 ^ 32 - 1)) % 2 ^ 32

def fls (x : ℕ) : ℕ := Nat.size x

/-- `__get_order`. -/
def getOrder (size : ℕ) : ℕ := fls (pred size >>> PAGE_SHIFT)

/-! ### The searches -/

def orderObjects (order size : ℕ) : Option ℕ := do
  let slabSize ← shl PAGE_SIZE order
  div slabSize size

/-- The loop of `slab_order`; its order is at most `max_order + 1`. -/
def slabOrderLoop (size maxOrder fractLeftover : ℕ) : ℕ → ℕ → Option ℕ
  | 0, order => some order
  | fuel + 1, order =>
    if order ≤ maxOrder then do
      let slabSize ← shl PAGE_SIZE order
      let rem ← rem slabSize size
      let limit ← div slabSize fractLeftover
      if rem ≤ limit then some order
      else slabOrderLoop size maxOrder fractLeftover fuel (order + 1)
    else some order

/-- `slab_order`. -/
def slabOrder (size minObjects maxOrder fractLeftover : ℕ) : Option ℕ := do
  let objects ← orderObjects slubMinOrder size
  if MAX_OBJS_PER_PAGE < objects then
    let bytes ← mul size MAX_OBJS_PER_PAGE
    some (pred (getOrder bytes))
  else
    let bytes ← mul minObjects size
    slabOrderLoop size maxOrder fractLeftover (maxOrder + 1) (max slubMinOrder (getOrder bytes))

/-- The loop of `calculate_order` over the fraction; the inner `none` is a search that fails. -/
def fractionLoop (size minObjects : ℕ) : ℕ → ℕ → Option (Option ℕ)
  | 0, _ => some none
  | fuel + 1, fraction =>
    if 4 ≤ fraction then do
      let order ← slabOrder size minObjects slubMaxOrder fraction
      if order ≤ slubMaxOrder then some (some order)
      else fractionLoop size minObjects fuel (fraction / 2)
    else some none

/-- Its loop over the number of objects. -/
def minObjectsLoop (size : ℕ) : ℕ → Option (Option ℕ)
  | 0 => some none
  | 1 => some none
  | minObjects + 2 => do
    match ← fractionLoop size (minObjects + 2) 16 16 with
    | some order => some (some order)
    | none => minObjectsLoop size (minObjects + 1)

/-- The rest of `calculate_order`, for a single object. -/
def singleOrder (size : ℕ) : Option ℤ := do
  let order ← slabOrder size 1 slubMaxOrder 1
  if order ≤ slubMaxOrder then some order
  else
    let order ← slabOrder size 1 MAX_ORDER 1
    if order < MAX_ORDER then some order else some (-1)

/-- `calculate_order`. -/
def calculateOrder (size : ℕ) : Option ℤ := do
  let minObjects := if slubMinObjects = 0 then 4 * (fls nrCpuIds + 1) else slubMinObjects
  let maxObjects ← orderObjects slubMaxOrder size
  match ← minObjectsLoop size (min minObjects maxObjects) with
  | some order => some order
  | none => singleOrder size

/-! ### One search -/

variable {size n o : ℕ}

/-- The slab of an order. -/
def slab (o : ℕ) : ℕ := PAGE_SIZE * 2 ^ o

theorem shl_page (ho : o ≤ 11) : shl PAGE_SIZE o = some (slab o) := by
  have hle : 2 ^ o ≤ 2 ^ 11 := Nat.pow_le_pow_right (by decide) ho
  unfold shl mul slab
  rw [if_pos]
  unfold PAGE_SIZE
  omega

theorem slab_mono {o' : ℕ} (h : o ≤ o') : slab o ≤ slab o' :=
  Nat.mul_le_mul_left _ (Nat.pow_le_pow_right (by decide) h)

theorem orderObjects_eq (ho : o ≤ 11) (hs : 1 ≤ size) :
    orderObjects o size = some (slab o / size) := by
  unfold orderObjects
  rw [shl_page ho]
  exact if_neg (by omega)

/-- **`get_order`** is the smallest order whose slab holds the bytes. -/
theorem getOrder_le_iff (h1 : 1 ≤ n) (h2 : n < 2 ^ 32) : getOrder n ≤ o ↔ n ≤ slab o := by
  have hpred : pred n = n - 1 := by
    unfold pred
    omega
  unfold getOrder fls slab PAGE_SIZE PAGE_SHIFT
  rw [Nat.size_le, hpred, Nat.shiftRight_eq_div_pow, Nat.div_lt_iff_lt_mul (by decide)]
  omega

/-- The loop stops at the first order whose waste is within the fraction, or after the last order. -/
theorem slabOrderLoop_spec {maxOrder fract : ℕ} (hmax : maxOrder ≤ 11) (hs : 1 ≤ size)
    (hf : 1 ≤ fract) : ∀ (fuel order : ℕ), maxOrder < fuel + order →
    ∃ r, slabOrderLoop size maxOrder fract fuel order = some r ∧ order ≤ r ∧
      (r ≤ maxOrder → slab r % size ≤ slab r / fract) ∧
      ∀ o, order ≤ o → o < r → o ≤ maxOrder ∧ ¬ slab o % size ≤ slab o / fract
  | 0, order, h => ⟨order, rfl, le_rfl, fun hle => by omega, fun o h1 h2 => by omega⟩
  | fuel + 1, order, h => by
    rw [slabOrderLoop]
    by_cases hle : order ≤ maxOrder
    · rw [if_pos hle, shl_page (hle.trans hmax)]
      unfold rem div
      simp only [Option.bind_eq_bind, Option.bind_some, if_neg (show ¬ size = 0 by omega),
        if_neg (show ¬ fract = 0 by omega)]
      by_cases hok : slab order % size ≤ slab order / fract
      · rw [if_pos hok]
        exact ⟨order, rfl, le_rfl, fun _ => hok, fun o h1 h2 => by omega⟩
      · rw [if_neg hok]
        obtain ⟨r, h1, h2, h3, h4⟩ := slabOrderLoop_spec hmax hs hf fuel (order + 1) (by omega)
        refine ⟨r, h1, by omega, h3, fun o ho hor => ?_⟩
        rcases Nat.eq_or_lt_of_le ho with rfl | hlt
        · exact ⟨hle, hok⟩
        · exact h4 o hlt hor
    · rw [if_neg hle]
      exact ⟨order, rfl, le_rfl, fun hle' => absurd hle' hle, fun o h1 h2 => by omega⟩

theorem slabOrder_spec {m maxOrder fract : ℕ} (hmax : maxOrder ≤ 11) (hs : 1 ≤ size)
    (hf : 1 ≤ fract) (hm : m * size < 2 ^ 32) :
    ∃ r, slabOrder size m maxOrder fract = some r ∧ getOrder (m * size) ≤ r ∧
      (r ≤ maxOrder → slab r % size ≤ slab r / fract) ∧
      ∀ o, getOrder (m * size) ≤ o → o < r → o ≤ maxOrder ∧ ¬ slab o % size ≤ slab o / fract := by
  have hobjects : slab slubMinOrder / size ≤ slab slubMinOrder := Nat.div_le_self _ _
  have hslab : slab slubMinOrder = 4096 := by decide
  unfold slabOrder
  rw [orderObjects_eq (by decide) hs]
  simp only [Option.bind_eq_bind, Option.bind_some]
  have hmul : mul m size = some (m * size) := if_pos hm
  have hmax0 : max slubMinOrder (getOrder (m * size)) = getOrder (m * size) := Nat.zero_max _
  rw [if_neg (by unfold MAX_OBJS_PER_PAGE; omega), hmul, Option.bind_some, hmax0]
  exact slabOrderLoop_spec hmax hs hf _ (getOrder (m * size)) (by omega)

/-- A single object may waste all of the rest, so the first order is taken. -/
theorem slabOrder_single {maxOrder : ℕ} (hmax : maxOrder ≤ 11) (hs : 1 ≤ size)
    (hsize : size < 2 ^ 32) : slabOrder size 1 maxOrder 1 = some (getOrder size) := by
  obtain ⟨r, h1, h2, -, h4⟩ := @slabOrder_spec size 1 maxOrder 1 hmax hs le_rfl (by omega)
  rw [Nat.one_mul] at h2 h4
  have hr : r = getOrder size := by
    by_contra hne
    have := (h4 _ le_rfl (by omega)).2
    rw [Nat.div_one] at this
    exact this (Nat.mod_le _ _)
  rw [h1, hr]

/-! ### Several objects -/

/-- An order that the search for `m` objects may return. -/
def Roomy (size m o : ℕ) : Prop :=
  o ≤ slubMaxOrder ∧ m * size ≤ slab o ∧ 4 * (slab o % size) ≤ slab o

/-- **The searches for `m` objects**, from the fraction `2 ^ j` down to `4`: where they fail, more than
a quarter of the largest slab is wasted. -/
theorem fractionLoop_spec {m : ℕ} (hs : 1 ≤ size) (hm : 1 ≤ m) (hfit : m * size ≤ slab slubMaxOrder) :
    ∀ (fuel j : ℕ), 2 ≤ j → j < fuel + 2 →
    ∃ r, fractionLoop size m fuel (2 ^ j) = some r ∧ (∀ o, r = some o → Roomy size m o) ∧
      (r = none → ¬ 4 * (slab slubMaxOrder % size) ≤ slab slubMaxOrder)
  | 0, j, h2, hlt => by omega
  | fuel + 1, j, h2, hlt => by
    have hslab : slab slubMaxOrder = 32768 := by decide
    have hpos : 1 ≤ m * size := Nat.mul_pos hm hs
    have hpow : 4 ≤ 2 ^ j := Nat.pow_le_pow_right (show 0 < 2 by decide) h2
    rw [fractionLoop, if_pos hpow]
    obtain ⟨r, h1, hget, hwaste, hfail⟩ := slabOrder_spec (m := m) (show slubMaxOrder ≤ 11 by decide) hs
      (show 1 ≤ 2 ^ j by omega) (by omega)
    rw [h1]
    simp only [Option.bind_eq_bind, Option.bind_some]
    by_cases hr : r ≤ slubMaxOrder
    · rw [if_pos hr]
      refine ⟨some r, rfl, fun o ho => ?_, fun h => absurd h (by simp)⟩
      obtain rfl := Option.some.inj ho
      refine ⟨hr, (getOrder_le_iff hpos (by omega)).mp hget, ?_⟩
      have hdiv : slab r / 2 ^ j ≤ slab r / 4 := Nat.div_le_div_left hpow (by decide)
      have := hwaste hr
      omega
    · rw [if_neg hr]
      rcases Nat.eq_or_lt_of_le h2 with rfl | hj
      · have hend : fractionLoop size m fuel (2 ^ 2 / 2) = some none := by
          cases fuel with
          | zero => rfl
          | succ fuel => rw [fractionLoop, if_neg (by decide)]
        refine ⟨none, hend, fun o ho => absurd ho (by simp), fun _ hle => ?_⟩
        have hget' : getOrder (m * size) ≤ slubMaxOrder :=
          (getOrder_le_iff hpos (by omega)).mpr hfit
        exact (hfail _ hget' (by omega)).2 (by omega)
      · obtain ⟨i, rfl⟩ : ∃ i, j = i + 1 := ⟨j - 1, by omega⟩
        rw [Nat.pow_succ, Nat.mul_div_cancel _ (by decide)]
        exact fractionLoop_spec hs hm hfit fuel i (by omega) (by omega)

/-- The search over the number of objects fails only for sizes of which the largest slab wastes more
than a quarter, or holds fewer than two. -/
theorem minObjectsLoop_spec (hs : 1 ≤ size) : ∀ m, m * size ≤ slab slubMaxOrder →
    ∃ r, minObjectsLoop size m = some r ∧ (∀ o, r = some o → ∃ k, 2 ≤ k ∧ Roomy size k o) ∧
      (r = none → m ≤ 1 ∨ ¬ 4 * (slab slubMaxOrder % size) ≤ slab slubMaxOrder)
  | 0, _ => ⟨none, rfl, fun o h => absurd h (by simp), fun _ => Or.inl (by omega)⟩
  | 1, _ => ⟨none, rfl, fun o h => absurd h (by simp), fun _ => Or.inl le_rfl⟩
  | m + 2, hm => by
    obtain ⟨r, h1, h2, h3⟩ := fractionLoop_spec hs (show 1 ≤ m + 2 by omega) hm 16 4 (by decide)
      (by decide)
    have hround : minObjectsLoop size (m + 2) =
        (fractionLoop size (m + 2) 16 (2 ^ 4)).bind fun r =>
          match r with
          | some order => some (some order)
          | none => minObjectsLoop size (m + 1) := rfl
    rw [hround, h1, Option.bind_some]
    cases r with
    | some o =>
      exact ⟨some o, rfl, fun o' ho => ⟨m + 2, by omega, h2 o' ho⟩, fun h => absurd h (by simp)⟩
    | none =>
      have hle : (m + 1) * size ≤ slab slubMaxOrder :=
        (Nat.mul_le_mul_right _ (Nat.le_succ _)).trans hm
      obtain ⟨r', h1', h2', -⟩ := minObjectsLoop_spec hs (m + 1) hle
      exact ⟨r', h1', h2', fun _ => Or.inr (h3 rfl)⟩

/-! ### The order -/

/-- An order is a good choice: it exists, an object fits, and the waste is small, unless there is no
smaller order and no room for a second object. -/
structure Good (size o : ℕ) : Prop where
  lt : o < MAX_ORDER
  fits : 1 ≤ slab o / size
  waste : 4 * (slab o % size) ≤ slab o ∨ (slab o / size = 1 ∧ ∀ o' < o, slab o' / size = 0)

theorem Roomy.good {m : ℕ} (hs : 1 ≤ size) (hm : 1 ≤ m) (h : Roomy size m o) : Good size o := by
  obtain ⟨hle, hfit, hwaste⟩ := h
  refine ⟨by unfold MAX_ORDER; unfold slubMaxOrder PAGE_ALLOC_COSTLY_ORDER at hle; omega,
    ?_, Or.inl hwaste⟩
  rw [Nat.le_div_iff_mul_le hs]
  exact (Nat.mul_le_mul_right _ hm).trans hfit

/-- The smallest order for an object of more than two pages. -/
theorem good_getOrder (hsize : size < 2 ^ 32) (hbig : slab 1 < size) (hlt : getOrder size < MAX_ORDER) :
    Good size (getOrder size) := by
  have hle := fun o => getOrder_le_iff (n := size) (o := o) (by omega) hsize
  have hfit := (hle _).mp le_rfl
  have hsmall : ∀ o' < getOrder size, slab o' < size := fun o' ho' => by
    by_contra hc
    have := (hle o').mpr (not_lt.mp hc)
    omega
  refine ⟨hlt, ?_, Or.inr ⟨?_, fun o' ho' => Nat.div_eq_of_lt (hsmall o' ho')⟩⟩
  · rw [Nat.le_div_iff_mul_le (by omega)]
    omega
  · -- half of the slab is too small
    obtain ⟨j, hj⟩ : ∃ j, getOrder size = j + 1 := by
      refine ⟨getOrder size - 1, ?_⟩
      by_contra hc
      have := (hle 1).mp (by omega)
      omega
    have hhalf := hsmall j (by omega)
    have hdouble : slab (j + 1) = 2 * slab j := by
      unfold slab
      rw [Nat.pow_succ]
      ring
    rw [hj] at hfit ⊢
    rw [hdouble] at hfit ⊢
    exact Nat.div_eq_of_lt_le (by omega) (by omega)

theorem singleOrder_spec (hsize : size < 2 ^ 32) (hbig : slab 1 < size) :
    singleOrder size = some (if getOrder size < MAX_ORDER then (getOrder size : ℤ) else -1) := by
  have hcostly := @slabOrder_single _ slubMaxOrder (by decide) (by omega) hsize
  have hlast := @slabOrder_single _ MAX_ORDER (by decide) (by omega) hsize
  unfold singleOrder
  rw [hcostly, Option.bind_eq_bind, Option.bind_some]
  by_cases hle : getOrder size ≤ slubMaxOrder
  · rw [if_pos hle, if_pos (hle.trans_lt (by decide))]
  · rw [if_neg hle, hlast, Option.bind_some]
    split <;> rfl

/-- **The order of a slab.** Nothing overflows and nothing is divided by zero; the result is `-1`
exactly for sizes above the largest block, and a good choice otherwise. -/
theorem calculateOrder_good (hs : 1 ≤ size) (hsize : size < 2 ^ 32) :
    ∃ r : ℤ, calculateOrder size = some r ∧ (r = -1 ↔ PAGE_SIZE <<< (MAX_ORDER - 1) < size) ∧
      (r ≠ -1 → ∃ o : ℕ, r = o ∧ Good size o) := by
  have h3 : slab slubMaxOrder = 32768 := by decide
  have h1 : slab 1 = 8192 := by decide
  have h10 : slab 10 = 4194304 := by decide
  have hlast : PAGE_SIZE <<< (MAX_ORDER - 1) = slab 10 := by decide
  have hmin : min (4 * (fls nrCpuIds + 1)) (slab slubMaxOrder / size) * size ≤ slab slubMaxOrder :=
    (Nat.mul_le_mul_right _ (min_le_right _ _)).trans (Nat.div_mul_le_self _ _)
  obtain ⟨r, hr, hsome, hnone⟩ := minObjectsLoop_spec hs _ hmin
  unfold calculateOrder
  rw [orderObjects_eq (by decide) hs]
  simp only [Option.bind_eq_bind, Option.bind_some, slubMinObjects, if_true]
  rw [hr, hlast]
  cases r with
  | some o =>
    obtain ⟨k, hk, hroom⟩ := hsome o rfl
    have hle : slab o ≤ slab slubMaxOrder := slab_mono hroom.1
    have hbytes : 2 * size ≤ k * size := Nat.mul_le_mul_right _ hk
    have := hroom.2.1
    refine ⟨o, rfl, iff_of_false (by omega) (by omega), fun _ => ⟨o, rfl, hroom.good hs (by omega)⟩⟩
  | none =>
    have hbig : slab 1 < size := by
      have hmod := Nat.mod_lt (slab slubMaxOrder) (show 0 < size by omega)
      rcases hnone rfl with h | h
      · have hobj : slab slubMaxOrder / size ≤ 1 := by
          have h16 : 4 * (fls nrCpuIds + 1) = 16 := by decide
          omega
        have hdm := Nat.div_add_mod (slab slubMaxOrder) size
        have : size * (slab slubMaxOrder / size) ≤ size * 1 := Nat.mul_le_mul_left _ hobj
        omega
      · omega
    refine ⟨_, singleOrder_spec hsize hbig, ?_⟩
    have hiff := getOrder_le_iff (o := 10) hs hsize
    by_cases hlt : getOrder size < MAX_ORDER
    · rw [if_pos hlt]
      have hle : size ≤ slab 10 := hiff.mp (by unfold MAX_ORDER at hlt; omega)
      exact ⟨iff_of_false (by omega) (by omega), fun _ => ⟨_, rfl, good_getOrder hsize hbig hlt⟩⟩
    · rw [if_neg hlt]
      have hgt : ¬ size ≤ slab 10 := fun hc => hlt (by
        have := hiff.mpr hc
        unfold MAX_ORDER
        omega)
      exact ⟨iff_of_true rfl (by omega), fun h => absurd rfl h⟩

/-- The order of a slab of objects of 12000 bytes. -/
theorem calculateOrder_good_twelveThousand : calculateOrder 12000 = some 2 ∧ Good 12000 2 := by
  obtain ⟨r, hr, -, hgood⟩ := @calculateOrder_good 12000 (by decide) (by decide)
  have h : calculateOrder 12000 = some 2 := by decide +kernel
  obtain rfl := Option.some.inj (hr.symm.trans h)
  obtain ⟨o, ho, hg⟩ := hgood (by decide)
  obtain rfl : o = 2 := by omega
  exact ⟨h, hg⟩

end HardStack.Slub.Order
