import HardStack.Lib.Interval
import HardStack.Memblock.Find
import HardStack.Memblock.Run

/-! # Iterating over the free ranges

`for_each_free_mem_range` and its reverse advance two indices in lockstep: one over the regions of
memory, one over the areas between the reservations. A region and an area that meet give one free
range. From a cursor on, exactly the pairs that meet and that neither index has passed are left, so
that each call takes the first of them, and the ranges are the maximal intervals of memory without the
reserved addresses. -/

namespace HardStack.Memblock.Iterate

open HardStack.Memblock.Model HardStack.Memblock.Regions HardStack.Memblock.Run
open HardStack.Lib.Interval

/-! ### The macros -/

/-- The ranges of `for_each_mem_range` and `for_each_mem_range_rev` from a call of `next` on: none if
`n` rounds do not come to the end. -/
def forEachRange (next : ℕ → ℕ × ℕ × ℕ) : ℕ → ℕ × ℕ × ℕ → Option (List (ℕ × ℕ))
  | 0, _ => none
  | n + 1, (i, thisStart, thisEnd) =>
    if i = ULLONG_MAX then some []
    else (forEachRange next n (next i)).map ((thisStart, thisEnd) :: ·)

/-- `for_each_free_mem_range`. -/
def forEachFreeMemRange (memory reserved : MemblockType) (n : ℕ) : Option (List (ℕ × ℕ)) :=
  forEachRange (nextMemRange memory reserved) n (nextMemRange memory reserved 0)

/-- `for_each_free_mem_range_reverse`. -/
def forEachFreeMemRangeReverse (memory reserved : MemblockType) (n : ℕ) : Option (List (ℕ × ℕ)) :=
  forEachRange (nextMemRangeRev memory reserved) n (nextMemRangeRev memory reserved ULLONG_MAX)

/-- A type as it is in memory: the representation invariant, with the dummy region at 0 as the static
initial value and `memblock_remove_region` have it, and an array inside the address space. -/
structure Proper (type : MemblockType) : Prop where
  rep : Rep type
  dummy : (type.region 0).size = 0 → (type.region 0).base = 0
  bytes : type.cnt * regionBytes ≤ 2 ^ 32

/-! ### The cursor -/

theorem toInt_emod {a : ℤ} (h1 : -1 ≤ a) (h2 : a < 2 ^ 31) : toInt (a % 2 ^ 32).toNat = a := by
  unfold toInt
  split_ifs with h
  · omega
  · omega

theorem unpackA_packIdx {a : ℤ} (b : ℤ) (h1 : -1 ≤ a) (h2 : a < 2 ^ 31) :
    unpackA (packIdx a b) = a := by
  have ha : (a % 2 ^ 32).toNat < 2 ^ 32 := by omega
  unfold unpackA packIdx
  rw [Nat.add_mul_mod_self_right, Nat.mod_eq_of_lt ha]
  exact toInt_emod h1 h2

theorem unpackB_packIdx (a : ℤ) {b : ℤ} (h1 : -1 ≤ b) (h2 : b < 2 ^ 31) :
    unpackB (packIdx a b) = b := by
  have ha : (a % 2 ^ 32).toNat < 2 ^ 32 := by omega
  have hb : (b % 2 ^ 32).toNat < 2 ^ 32 := by omega
  unfold unpackB packIdx
  rw [Nat.add_mul_div_right _ _ (by norm_num), Nat.div_eq_of_lt ha, Nat.zero_add,
    Nat.mod_eq_of_lt hb]
  exact toInt_emod h1 h2

/-- Only a cursor with both indices at -1 would end the iteration. -/
theorem packIdx_ne {a b : ℤ} (h1 : -1 ≤ a) (h2 : -1 ≤ b) (ha : a < 2 ^ 31) (hb : b < 2 ^ 31)
    (h : 0 ≤ a ∨ 0 ≤ b) : packIdx a b ≠ ULLONG_MAX := by
  intro he
  have hA := unpackA_packIdx b h1 ha
  have hB := unpackB_packIdx a h2 hb
  rw [he] at hA hB
  have hA' : unpackA ULLONG_MAX = -1 := by decide
  have hB' : unpackB ULLONG_MAX = -1 := by decide
  omega

/-! ### Regions and areas -/

section

variable {type : MemblockType} {i j : ℕ}

theorem Proper.cnt_lt (h : Proper type) : type.cnt + 1 < 2 ^ 31 := by
  have := h.bytes
  unfold regionBytes at this
  omega

theorem Proper.fin_lt_base (h : Proper type) (hij : i < j) (hj : j < type.cnt) :
    (type.region i).fin < (type.region j).base := by
  have hlen : j < type.regions.length := hj
  have := List.pairwise_iff_getElem.mp h.rep.apart i j (by omega) hlen hij
  rw [← region_eq, ← region_eq] at this
  exact this

/-- A region is not empty, but for the dummy. -/
theorem Proper.base_lt_fin (h : Proper type) (hi : i < type.cnt) (hpos : 0 < (type.region i).fin) :
    (type.region i).base < (type.region i).fin := by
  unfold Region.fin at hpos ⊢
  rcases h.rep.sizes with ⟨hone, hz, -⟩ | hall
  · obtain rfl : i = 0 := by omega
    have := h.dummy hz
    omega
  · have := hall i hi
    omega

theorem base_le_fin (type : MemblockType) (i : ℕ) : (type.region i).base ≤ (type.region i).fin :=
  Nat.le_add_right _ _

theorem Proper.fin_mono (h : Proper type) (hij : i ≤ j) (hj : j < type.cnt) :
    (type.region i).fin ≤ (type.region j).fin := by
  rcases Nat.eq_or_lt_of_le hij with rfl | hlt
  · exact le_rfl
  · have h1 := h.fin_lt_base hlt hj
    have h2 := base_le_fin type j
    omega

theorem gapEnd_of_lt (hj : j < type.cnt) : type.gapEnd j = (type.region j).base := by
  unfold MemblockType.gapEnd
  rw [if_pos hj]

theorem gapStart_succ (type : MemblockType) (j : ℕ) :
    type.gapStart (j + 1) = (type.region j).fin := by
  unfold MemblockType.gapStart
  rw [if_neg (by omega), Nat.add_sub_cancel]

/-- The areas are in increasing order. -/
theorem Proper.gapEnd_le_gapStart (h : Proper type) (hij : i < j) (hj : j ≤ type.cnt) :
    type.gapEnd i ≤ type.gapStart j := by
  cases j with
  | zero => omega
  | succ j =>
    rw [gapStart_succ, gapEnd_of_lt (by omega)]
    have h1 := base_le_fin type i
    have h2 := h.fin_mono (show i ≤ j by omega) (by omega)
    omega

theorem Proper.gapStart_le_gapEnd (h : Proper type) (hj : j ≤ type.cnt) :
    type.gapStart j ≤ type.gapEnd j := by
  cases j with
  | zero => exact Nat.zero_le _
  | succ j =>
    rw [gapStart_succ]
    rcases Nat.eq_or_lt_of_le hj with heq | hlt
    · unfold MemblockType.gapEnd
      rw [if_neg (by omega)]
      exact h.rep.fin_le j (by omega)
    · rw [gapEnd_of_lt hlt]
      exact (h.fin_lt_base (Nat.lt_succ_self j) hlt).le

/-- An address that is not covered lies in an area. -/
theorem exists_gap {x : ℕ} (hx : x ∉ covered type.regions) (hmax : x < PHYS_ADDR_MAX) :
    ∃ j ≤ type.cnt, type.gapStart j ≤ x ∧ x < type.gapEnd j := by
  have hex : ∃ j, x < type.gapEnd j := by
    refine ⟨type.cnt, ?_⟩
    unfold MemblockType.gapEnd
    rw [if_neg (lt_irrefl _)]
    exact hmax
  refine ⟨Nat.find hex, ?_, ?_, Nat.find_spec hex⟩
  · by_contra hgt
    have hno := Nat.find_min hex (show type.cnt < Nat.find hex by omega)
    unfold MemblockType.gapEnd at hno
    rw [if_neg (lt_irrefl _)] at hno
    exact hno hmax
  · -- the region before the first area that ends above it ends at or below it
    by_cases hz : Nat.find hex = 0
    · rw [hz]
      exact Nat.zero_le _
    · obtain ⟨j, hj⟩ := Nat.exists_eq_succ_of_ne_zero hz
      have hno := Nat.find_min hex (show j < Nat.find hex by omega)
      rw [hj, Nat.succ_eq_add_one, gapStart_succ]
      by_cases hjc : j < type.cnt
      · rw [gapEnd_of_lt hjc] at hno
        by_contra hlt
        exact hx ⟨type.region j, mem_regions.mpr ⟨j, hjc, rfl⟩, by omega, by omega⟩
      · unfold MemblockType.gapEnd at hno
        rw [if_neg hjc] at hno
        omega

end

/-! ### Pairs that meet -/

variable {A B : MemblockType} {i j i' j' a b : ℕ}

/-- Region `i` of the first type and the area before region `j` of the second have an address in
common. -/
structure Meets (A B : MemblockType) (i j : ℕ) : Prop where
  fst_lt : i < A.cnt
  snd_le : j ≤ B.cnt
  gapStart_lt : B.gapStart j < (A.region i).fin
  lt_gapEnd : (A.region i).base < B.gapEnd j

/-- What they have in common. -/
def part (A B : MemblockType) (i j : ℕ) : ℕ × ℕ :=
  (max (A.region i).base (B.gapStart j), min (A.region i).fin (B.gapEnd j))

/-- The pairs of a list are those that meet, from the cursor on. -/
def Ahead (A B : MemblockType) (a b : ℕ) (i j : ℕ) : Prop := Meets A B i j ∧ a ≤ i ∧ b ≤ j

/-- The pairs that meet, before the cursor of the reverse iteration. -/
def Behind (A B : MemblockType) (na nb : ℕ) (i j : ℕ) : Prop := Meets A B i j ∧ i < na ∧ j < nb

theorem Meets.part_lt (hA : Proper A) (hB : Proper B) (h : Meets A B i j) :
    (part A B i j).1 < (part A B i j).2 := by
  have h1 := hA.base_lt_fin h.fst_lt (by have := h.gapStart_lt; omega)
  have h2 : B.gapStart j < B.gapEnd j := by
    have hlow := h.lt_gapEnd
    have hfin := h.gapStart_lt
    cases j with
    | zero =>
      show 0 < _
      omega
    | succ j =>
      rcases Nat.eq_or_lt_of_le h.snd_le with heq | hlt
      · unfold MemblockType.gapEnd at hlow ⊢
        rw [if_neg (by omega)] at hlow ⊢
        exact lt_of_lt_of_le hfin (hA.rep.fin_le i h.fst_lt)
      · rw [gapEnd_of_lt hlt, gapStart_succ]
        exact hB.fin_lt_base (Nat.lt_succ_self j) hlt
  have h3 := h.gapStart_lt
  have h4 := h.lt_gapEnd
  unfold part
  dsimp only
  omega

/-- A pair that is behind in an index lies below. -/
theorem Meets.part_le (hA : Proper A) (hB : Proper B) (h : Meets A B i j) (hlt : i' < i ∨ j' < j) :
    (part A B i' j').2 ≤ (part A B i j).1 := by
  unfold part
  dsimp only
  rcases hlt with hlt | hlt
  · have := hA.fin_lt_base hlt h.fst_lt
    omega
  · have := hB.gapEnd_le_gapStart hlt h.snd_le
    omega

/-! ### One call -/

/-- The inner loop passes by the areas that no region from `a` on meets: it stops at an area that meets
region `a`, or where no area from there on does. -/
theorem nextAreaB_cases (hA : Proper A) (hB : Proper B) (ha : a < A.cnt) : ∀ (n b : ℕ) {b' : ℕ}
    {found : Bool}, b + n = B.cnt + 1 → nextAreaB (A.region a) B n b = (b', found) →
    b ≤ b' ∧ (∀ i j, Ahead A B a b i j → b' ≤ j) ∧
      ((found = true ∧ Meets A B a b') ∨ (found = false ∧ ∀ j, b' ≤ j → ¬ Meets A B a j))
  | 0, b, b', found, hn, he => by
    cases he
    exact ⟨le_rfl, fun i j h => h.2.2, Or.inr ⟨rfl, fun j hj h => by have := h.snd_le; omega⟩⟩
  | n + 1, b, b', found, hn, he => by
    unfold nextAreaB at he
    split_ifs at he with h1 h2
    · cases he
      refine ⟨le_rfl, fun i j h => h.2.2, Or.inr ⟨rfl, fun j hj h => ?_⟩⟩
      have hlt := h.gapStart_lt
      rcases Nat.eq_or_lt_of_le hj with rfl | hbj
      · omega
      · have h3 := hB.gapStart_le_gapEnd (show b ≤ B.cnt by omega)
        have h4 := hB.gapEnd_le_gapStart hbj h.snd_le
        omega
    · cases he
      exact ⟨le_rfl, fun i j h => h.2.2, Or.inl ⟨rfl, ha, by omega, by omega, h2⟩⟩
    · obtain ⟨hle, hleft, hout⟩ := nextAreaB_cases hA hB ha n (b + 1) (by omega) he
      refine ⟨by omega, fun i j h => hleft i j ⟨h.1, h.2.1, ?_⟩, hout⟩
      -- area `b` ends at or below the base of region `a`
      by_contra hj
      obtain rfl : j = b := by have := h.2.2; omega
      have hlow := h.1.lt_gapEnd
      rcases Nat.eq_or_lt_of_le h.2.1 with rfl | hai
      · exact h2 hlow
      · have h3 := hA.fin_lt_base hai h.1.fst_lt
        have h4 := base_le_fin A a
        omega

theorem nextAreaB_le (m : Region) (B : MemblockType) : ∀ (n b : ℕ) {b' : ℕ} {found : Bool},
    nextAreaB m B n b = (b', found) → b' ≤ b + n
  | 0, b, b', found, he => by
    cases he
    exact le_rfl
  | n + 1, b, b', found, he => by
    unfold nextAreaB at he
    split_ifs at he with h1 h2
    · cases he
      omega
    · cases he
      omega
    · have := nextAreaB_le m B n (b + 1) he
      omega

/-- The cursor after the pair `(a, b)`. -/
def advance (A B : MemblockType) (a b : ℕ) : ℕ × ℕ :=
  if (A.region a).fin ≤ B.gapEnd b then (a + 1, b) else (a, b + 1)

theorem ahead_advance (hA : Proper A) (hB : Proper B) (h : Meets A B a b) :
    Ahead A B a b i j ↔ (i = a ∧ j = b) ∨ Ahead A B (advance A B a b).1 (advance A B a b).2 i j := by
  unfold advance Ahead
  constructor
  · rintro ⟨hm, hi, hj⟩
    by_cases heq : i = a ∧ j = b
    · exact Or.inl heq
    · right
      split_ifs with hend
      · refine ⟨hm, ?_, hj⟩
        by_contra hlt
        obtain rfl : i = a := by dsimp only at hlt; omega
        have h1 := hB.gapEnd_le_gapStart (show b < j by omega) hm.snd_le
        have h2 := hm.gapStart_lt
        omega
      · refine ⟨hm, hi, ?_⟩
        by_contra hlt
        obtain rfl : j = b := by dsimp only at hlt; omega
        have h1 := hA.fin_lt_base (show a < i by omega) hm.fst_lt
        have h2 := hm.lt_gapEnd
        omega
  · rintro (⟨rfl, rfl⟩ | ⟨hm, hi, hj⟩)
    · exact ⟨h, le_rfl, le_rfl⟩
    · split_ifs at hi hj with hend
      · exact ⟨hm, by dsimp only at hi; omega, hj⟩
      · exact ⟨hm, hi, by dsimp only at hj; omega⟩

/-- **One call of `__next_mem_range`** takes the first pair that is left, or ends the iteration. -/
theorem nextMemRangeLoop_cases (hA : Proper A) (hB : Proper B) : ∀ (n a b : ℕ), n = A.cnt - a →
    b ≤ B.cnt + 1 →
    (nextMemRangeLoop A B n a b = (ULLONG_MAX, 0, 0) ∧ ∀ i j, ¬ Ahead A B a b i j) ∨
      ∃ a' b', a ≤ a' ∧ b ≤ b' ∧ Meets A B a' b' ∧ (∀ i j, Ahead A B a b i j ↔ Ahead A B a' b' i j) ∧
        nextMemRangeLoop A B n a b =
          (packIdx (advance A B a' b').1 (advance A B a' b').2, part A B a' b')
  | 0, a, b, hn, hb => by
    refine Or.inl ⟨rfl, fun i j h => ?_⟩
    have h1 := h.1.fst_lt
    have h2 := h.2.1
    omega
  | n + 1, a, b, hn, hb => by
    cases hB' : nextAreaB (A.region a) B (B.cnt + 1 - b) b with
    | mk b' found =>
      have ha : a < A.cnt := by omega
      obtain ⟨hle, hleft, ⟨rfl, hm⟩ | ⟨rfl, hno⟩⟩ := nextAreaB_cases hA hB ha _ b (by omega) hB'
      · right
        refine ⟨a, b', le_rfl, hle, hm, fun i j => ⟨fun h => ⟨h.1, h.2.1, hleft i j h⟩,
          fun h => ⟨h.1, h.2.1, hle.trans h.2.2⟩⟩, ?_⟩
        unfold nextMemRangeLoop
        dsimp only
        rw [hB']
        dsimp only
        rw [if_pos rfl]
        unfold advance part
        split_ifs
        · push_cast
          rfl
        · push_cast
          rfl
      · -- no area is left for region `a`
        have hskip : ∀ i j, Ahead A B a b i j ↔ Ahead A B (a + 1) b' i j := by
          intro i j
          constructor
          · intro h
            have hj := hleft i j h
            refine ⟨h.1, ?_, hj⟩
            by_contra hi
            obtain rfl : i = a := by have := h.2.1; omega
            exact hno j hj h.1
          · exact fun h => ⟨h.1, by have := h.2.1; omega, hle.trans h.2.2⟩
        have hb' : b' ≤ B.cnt + 1 := by
          have := (nextAreaB_le (A.region a) B _ b hB')
          omega
        have heq : nextMemRangeLoop A B (n + 1) a b = nextMemRangeLoop A B n (a + 1) b' := by
          conv_lhs => unfold nextMemRangeLoop
          dsimp only
          rw [hB']
          rfl
        rw [heq]
        rcases nextMemRangeLoop_cases hA hB n (a + 1) b' (by omega) hb' with
          ⟨hend, hnone⟩ | ⟨a'', b'', ha'', hb'', hm, hiff, heq'⟩
        · exact Or.inl ⟨hend, fun i j h => hnone i j ((hskip i j).mp h)⟩
        · exact Or.inr ⟨a'', b'', by omega, by omega, hm, fun i j => (hskip i j).trans (hiff i j), heq'⟩

theorem nextMemRange_packIdx (hA : Proper A) (hB : Proper B) (ha : a ≤ A.cnt)
    (hb : b ≤ B.cnt + 1) :
    nextMemRange A B (packIdx a b) = nextMemRangeLoop A B (A.cnt - a) a b := by
  have h1 := hA.cnt_lt
  have h2 := hB.cnt_lt
  unfold nextMemRange
  rw [unpackA_packIdx _ (by omega) (by omega), unpackB_packIdx _ (by omega) (by omega)]
  rfl

theorem advance_bounds (h : Meets A B a b) : (advance A B a b).1 ≤ A.cnt ∧
    (advance A B a b).2 ≤ B.cnt + 1 ∧ (advance A B a b).1 + (advance A B a b).2 = a + b + 1 := by
  have h1 := h.fst_lt
  have h2 := h.snd_le
  unfold advance
  split_ifs
  · dsimp only
    omega
  · dsimp only
    omega

/-- The ranges of a list are those of the pairs. -/
def Lists (A B : MemblockType) (P : ℕ → ℕ → Prop) (L : List (ℕ × ℕ)) : Prop :=
  ∀ r, r ∈ L ↔ ∃ i j, P i j ∧ part A B i j = r

theorem lists_nil {P : ℕ → ℕ → Prop} (h : ∀ i j, ¬ P i j) : Lists A B P [] := by
  intro r
  simp only [List.not_mem_nil, false_iff]
  rintro ⟨i, j, hp, -⟩
  exact h i j hp

theorem Lists.cons {P Q : ℕ → ℕ → Prop} {L : List (ℕ × ℕ)} (h : Lists A B Q L)
    (hP : ∀ i j, P i j ↔ (i = a ∧ j = b) ∨ Q i j) : Lists A B P (part A B a b :: L) := by
  intro r
  rw [List.mem_cons, h r]
  constructor
  · rintro (rfl | ⟨i, j, hq, rfl⟩)
    · exact ⟨a, b, (hP a b).mpr (Or.inl ⟨rfl, rfl⟩), rfl⟩
    · exact ⟨i, j, (hP i j).mpr (Or.inr hq), rfl⟩
  · rintro ⟨i, j, hp, rfl⟩
    rcases (hP i j).mp hp with ⟨rfl, rfl⟩ | hq
    · exact Or.inl rfl
    · exact Or.inr ⟨i, j, hq, rfl⟩

/-- **The iteration** from a cursor on: every pair that is left, in increasing order. -/
theorem forEachRange_ahead (hA : Proper A) (hB : Proper B) (n : ℕ) : ∀ (a b : ℕ), b ≤ B.cnt + 1 →
    A.cnt + B.cnt ≤ n + a + b →
    ∃ L : List (ℕ × ℕ), forEachRange (nextMemRange A B) (n + 1)
        (nextMemRangeLoop A B (A.cnt - a) a b) = some L ∧
      L.Pairwise (fun r r' => r.2 ≤ r'.1) ∧ Lists A B (Ahead A B a b) L := by
  induction n with
  | zero =>
    intro a b hb hn
    rcases nextMemRangeLoop_cases hA hB _ a b rfl hb with ⟨hend, hno⟩ | ⟨a', b', ha', hb', hm, -⟩
    · rw [hend, forEachRange, if_pos rfl]
      exact ⟨[], rfl, List.Pairwise.nil, lists_nil hno⟩
    · have h1 := hm.fst_lt
      have h2 := hm.snd_le
      omega
  | succ n ih =>
    intro a b hb hn
    rcases nextMemRangeLoop_cases hA hB _ a b rfl hb with
      ⟨hend, hno⟩ | ⟨a', b', ha', hb', hm, hiff, heq⟩
    · rw [hend, forEachRange, if_pos rfl]
      exact ⟨[], rfl, List.Pairwise.nil, lists_nil hno⟩
    · obtain ⟨h1, h2, h3⟩ := advance_bounds hm
      obtain ⟨L, hL, hsort, hmem⟩ := ih (advance A B a' b').1 _ h2 (by omega)
      have hlt := hA.cnt_lt
      have hlt' := hB.cnt_lt
      rw [heq, forEachRange, if_neg (packIdx_ne (by omega) (by omega) (by omega) (by omega)
        (Or.inl (by omega))), nextMemRange_packIdx hA hB h1 h2, hL]
      refine ⟨_, rfl, List.pairwise_cons.mpr ⟨fun r hr => ?_, hsort⟩,
        hmem.cons fun i j => (hiff i j).trans (ahead_advance hA hB hm)⟩
      obtain ⟨i, j, hp, rfl⟩ := (hmem r).mp hr
      exact hp.1.part_le hA hB (by have h4 := hp.2.1; have h5 := hp.2.2; omega)

/-! ### One call of the reverse -/

/-- The inner loop of the reverse stops at an area that meets region `a`, or where no area from there
down does. -/
theorem nextAreaRevB_cases (hA : Proper A) (hB : Proper B) (ha : a < A.cnt) : ∀ (nb : ℕ) {nb' : ℕ}
    {found : Bool}, nb ≤ B.cnt + 1 → nextAreaRevB (A.region a) B nb = (nb', found) →
    nb' ≤ nb ∧ (∀ i j, Behind A B (a + 1) nb i j → j < nb') ∧
      ((found = true ∧ ∃ b, nb' = b + 1 ∧ Meets A B a b) ∨
        (found = false ∧ ∀ j < nb', ¬ Meets A B a j))
  | 0, nb', found, hn, he => by
    cases he
    exact ⟨le_rfl, fun i j h => h.2.2, Or.inr ⟨rfl, fun j hj => absurd hj (Nat.not_lt_zero j)⟩⟩
  | b + 1, nb', found, hn, he => by
    unfold nextAreaRevB at he
    split_ifs at he with h1 h2
    · cases he
      refine ⟨le_rfl, fun i j h => h.2.2, Or.inr ⟨rfl, fun j hj h => ?_⟩⟩
      have hlow := h.lt_gapEnd
      rcases Nat.eq_or_lt_of_le (Nat.le_of_lt_succ hj) with rfl | hjb
      · omega
      · have h3 := hB.gapStart_le_gapEnd (show b ≤ B.cnt by omega)
        have h4 := hB.gapEnd_le_gapStart hjb (show b ≤ B.cnt by omega)
        omega
    · cases he
      exact ⟨le_rfl, fun i j h => h.2.2, Or.inl ⟨rfl, b, rfl, ha, by omega, h2, by omega⟩⟩
    · obtain ⟨hle, hleft, hout⟩ := nextAreaRevB_cases hA hB ha b (by omega) he
      refine ⟨by omega, fun i j h => hleft i j ⟨h.1, h.2.1, ?_⟩, hout⟩
      -- area `b` starts at or above the end of region `a`
      by_contra hj
      obtain rfl : j = b := by have := h.2.2; omega
      have hfin := h.1.gapStart_lt
      have := hA.fin_mono (show i ≤ a by have := h.2.1; omega) ha
      omega

/-- The cursor of the reverse before the pair `(a, b)`. -/
def retreat (A B : MemblockType) (a b : ℕ) : ℕ × ℕ :=
  if (A.region a).base ≥ B.gapStart b then (a, b + 1) else (a + 1, b)

theorem behind_retreat (hA : Proper A) (hB : Proper B) (h : Meets A B a b) :
    Behind A B (a + 1) (b + 1) i j ↔
      (i = a ∧ j = b) ∨ Behind A B (retreat A B a b).1 (retreat A B a b).2 i j := by
  unfold retreat Behind
  constructor
  · rintro ⟨hm, hi, hj⟩
    by_cases heq : i = a ∧ j = b
    · exact Or.inl heq
    · right
      split_ifs with hend
      · refine ⟨hm, ?_, hj⟩
        by_contra hlt
        obtain rfl : i = a := by dsimp only at hlt; omega
        have h1 := hB.gapEnd_le_gapStart (show j < b by omega) h.snd_le
        have h2 := hm.lt_gapEnd
        omega
      · refine ⟨hm, hi, ?_⟩
        by_contra hlt
        obtain rfl : j = b := by dsimp only at hlt; omega
        have h1 := hA.fin_lt_base (show i < a by omega) h.fst_lt
        have h2 := hm.gapStart_lt
        omega
  · rintro (⟨rfl, rfl⟩ | ⟨hm, hi, hj⟩)
    · exact ⟨h, Nat.lt_succ_self _, Nat.lt_succ_self _⟩
    · split_ifs at hi hj with hend
      · exact ⟨hm, by dsimp only at hi; omega, hj⟩
      · exact ⟨hm, hi, by dsimp only at hj; omega⟩

/-- **One call of `__next_mem_range_rev`** takes the last pair that is left, or ends the iteration. -/
theorem nextMemRangeRevLoop_cases (hA : Proper A) (hB : Proper B) : ∀ (na nb : ℕ), na ≤ A.cnt →
    nb ≤ B.cnt + 1 →
    (nextMemRangeRevLoop A B na nb = (ULLONG_MAX, 0, 0) ∧ ∀ i j, ¬ Behind A B na nb i j) ∨
      ∃ a b, a < na ∧ b < nb ∧ Meets A B a b ∧
        (∀ i j, Behind A B na nb i j ↔ Behind A B (a + 1) (b + 1) i j) ∧
        nextMemRangeRevLoop A B na nb =
          (packIdx ((retreat A B a b).1 - 1) ((retreat A B a b).2 - 1), part A B a b)
  | 0, nb, hna, hnb => Or.inl ⟨rfl, fun i j h => absurd h.2.1 (Nat.not_lt_zero i)⟩
  | a + 1, nb, hna, hnb => by
    cases hB' : nextAreaRevB (A.region a) B nb with
    | mk nb' found =>
      have ha : a < A.cnt := hna
      obtain ⟨hle, hleft, ⟨rfl, b, rfl, hm⟩ | ⟨rfl, hno⟩⟩ := nextAreaRevB_cases hA hB ha nb hnb hB'
      · right
        refine ⟨a, b, Nat.lt_succ_self a, by omega, hm, fun i j => ⟨fun h => ⟨h.1, h.2.1, hleft i j h⟩,
          fun h => ⟨h.1, h.2.1, by have := h.2.2; omega⟩⟩, ?_⟩
        unfold nextMemRangeRevLoop
        dsimp only
        rw [hB']
        dsimp only
        rw [if_pos rfl, Nat.add_sub_cancel]
        unfold retreat part
        split_ifs
        · push_cast
          rw [add_sub_cancel_right]
        · push_cast
          rw [add_sub_cancel_right]
      · -- no area is left for region `a`
        have hskip : ∀ i j, Behind A B (a + 1) nb i j ↔ Behind A B a nb' i j := by
          intro i j
          constructor
          · intro h
            have hj := hleft i j h
            refine ⟨h.1, ?_, hj⟩
            by_contra hi
            obtain rfl : i = a := by have := h.2.1; omega
            exact hno j hj h.1
          · exact fun h => ⟨h.1, by have := h.2.1; omega, by have := h.2.2; omega⟩
        have heq : nextMemRangeRevLoop A B (a + 1) nb = nextMemRangeRevLoop A B a nb' := by
          conv_lhs => unfold nextMemRangeRevLoop
          dsimp only
          rw [hB']
          rfl
        rw [heq]
        rcases nextMemRangeRevLoop_cases hA hB a nb' (by omega) (by omega) with
          ⟨hend, hnone⟩ | ⟨a', b', ha', hb', hm, hiff, heq'⟩
        · exact Or.inl ⟨hend, fun i j h => hnone i j ((hskip i j).mp h)⟩
        · exact Or.inr ⟨a', b', by omega, by omega, hm, fun i j => (hskip i j).trans (hiff i j), heq'⟩

theorem nextMemRangeRev_packIdx (hA : Proper A) (hB : Proper B) {na nb : ℕ} (ha : na ≤ A.cnt)
    (hb : nb ≤ B.cnt + 1) (h : 0 < na ∨ 0 < nb) :
    nextMemRangeRev A B (packIdx (na - 1) (nb - 1)) = nextMemRangeRevLoop A B na nb := by
  have h1 := hA.cnt_lt
  have h2 := hB.cnt_lt
  unfold nextMemRangeRev
  rw [if_neg (packIdx_ne (by omega) (by omega) (by omega) (by omega) (by omega)),
    unpackA_packIdx _ (by omega) (by omega), unpackB_packIdx _ (by omega) (by omega),
    sub_add_cancel, sub_add_cancel]
  rfl

theorem retreat_bounds (h : Meets A B a b) : (retreat A B a b).1 ≤ A.cnt ∧
    (retreat A B a b).2 ≤ B.cnt + 1 ∧ (retreat A B a b).1 + (retreat A B a b).2 = a + b + 1 := by
  have h1 := h.fst_lt
  have h2 := h.snd_le
  unfold retreat
  split_ifs
  · dsimp only
    omega
  · dsimp only
    omega

/-- **The reverse iteration** from a cursor on: every pair that is left, in decreasing order. -/
theorem forEachRange_behind (hA : Proper A) (hB : Proper B) (n : ℕ) : ∀ (na nb : ℕ), na ≤ A.cnt →
    nb ≤ B.cnt + 1 → na + nb ≤ n + 1 →
    ∃ L : List (ℕ × ℕ), forEachRange (nextMemRangeRev A B) (n + 1)
        (nextMemRangeRevLoop A B na nb) = some L ∧
      L.Pairwise (fun r r' => r'.2 ≤ r.1) ∧ Lists A B (Behind A B na nb) L := by
  induction n with
  | zero =>
    intro na nb hna hnb hn
    rcases nextMemRangeRevLoop_cases hA hB na nb hna hnb with ⟨hend, hno⟩ | ⟨a, b, ha, hb, -⟩
    · rw [hend, forEachRange, if_pos rfl]
      exact ⟨[], rfl, List.Pairwise.nil, lists_nil hno⟩
    · omega
  | succ n ih =>
    intro na nb hna hnb hn
    rcases nextMemRangeRevLoop_cases hA hB na nb hna hnb with
      ⟨hend, hno⟩ | ⟨a, b, ha, hb, hm, hiff, heq⟩
    · rw [hend, forEachRange, if_pos rfl]
      exact ⟨[], rfl, List.Pairwise.nil, lists_nil hno⟩
    · obtain ⟨h1, h2, h3⟩ := retreat_bounds hm
      obtain ⟨L, hL, hsort, hmem⟩ := ih _ _ h1 h2 (by omega)
      have hlt := hA.cnt_lt
      have hlt' := hB.cnt_lt
      rw [heq, forEachRange, if_neg (packIdx_ne (by omega) (by omega) (by omega) (by omega)
        (by omega)), nextMemRangeRev_packIdx hA hB h1 h2 (by omega), hL]
      refine ⟨_, rfl, List.pairwise_cons.mpr ⟨fun r hr => ?_, hsort⟩,
        hmem.cons fun i j => (hiff i j).trans (behind_retreat hA hB hm)⟩
      obtain ⟨i, j, hp, rfl⟩ := (hmem r).mp hr
      exact hm.part_le hA hB (by have h4 := hp.2.1; have h5 := hp.2.2; omega)

/-! ### The free ranges -/

/-- Memory without the reserved addresses. -/
def freeSet (A B : MemblockType) : Set ℕ := covered A.regions \ covered B.regions

theorem mem_covered_region {type : MemblockType} {x : ℕ} :
    x ∈ covered type.regions ↔ ∃ i < type.cnt, (type.region i).base ≤ x ∧ x < (type.region i).fin := by
  rw [mem_covered]
  constructor
  · rintro ⟨r, hr, hx⟩
    obtain ⟨i, hi, rfl⟩ := mem_regions.mp hr
    exact ⟨i, hi, hx⟩
  · rintro ⟨i, hi, hx⟩
    exact ⟨type.region i, mem_regions.mpr ⟨i, hi, rfl⟩, hx⟩

/-- The addresses next to a region are not covered. -/
theorem Proper.not_covered {type : MemblockType} {x : ℕ} (h : Proper type) (hi : i < type.cnt)
    (hx : x + 1 = (type.region i).base ∨ x = (type.region i).fin) : x ∉ covered type.regions := by
  rw [mem_covered_region]
  rintro ⟨k, hk, hlo, hhi⟩
  have h1 := base_le_fin type i
  rcases Nat.lt_trichotomy i k with hlt | rfl | hlt
  · have := h.fin_lt_base hlt hk
    omega
  · omega
  · have := h.fin_lt_base hlt hi
    omega

/-- **A pair that meets is a maximal range.** -/
theorem Meets.isRun (hA : Proper A) (hB : Proper B) (h : Meets A B i j) :
    IsRun (freeSet A B) (part A B i j).1 (part A B i j).2 := by
  have h1 := h.gapStart_lt
  have h2 := h.lt_gapEnd
  refine ⟨h.part_lt hA hB, fun x hx => ⟨?_, ?_⟩, fun x hx hmem => ?_, fun hmem => ?_⟩
  · unfold part at hx
    have hlo := hx.1
    have hhi := hx.2
    dsimp only at hlo hhi
    exact mem_covered_region.mpr ⟨i, h.fst_lt, by omega, by omega⟩
  · rintro ⟨r, hr, hlo', hhi'⟩
    have hap := Find.gap_apart hB.rep.wf.apart h.snd_le r hr
    unfold part at hx
    have hlo := hx.1
    have hhi := hx.2
    dsimp only at hlo hhi
    omega
  · -- below the range the region starts, or the reservation before the area ends
    unfold part at hx
    dsimp only at hx
    by_cases hle : B.gapStart j ≤ (A.region i).base
    · exact hA.not_covered h.fst_lt (Or.inl (by omega)) hmem.1
    · cases j with
      | zero => exact hle (Nat.zero_le _)
      | succ j =>
        rw [gapStart_succ] at hle hx
        have hj : j < B.cnt := h.snd_le
        have := hB.base_lt_fin hj (by omega)
        exact hmem.2 (mem_covered_region.mpr ⟨j, hj, by omega, by omega⟩)
  · unfold part at hmem
    dsimp only at hmem
    by_cases hle : (A.region i).fin ≤ B.gapEnd j
    · rw [min_eq_left hle] at hmem
      exact hA.not_covered h.fst_lt (Or.inr rfl) hmem.1
    · rw [min_eq_right (by omega)] at hmem
      have hj : j < B.cnt := by
        by_contra hge
        unfold MemblockType.gapEnd at hle
        rw [if_neg hge] at hle
        exact hle (hA.rep.fin_le i h.fst_lt)
      rw [gapEnd_of_lt hj] at hmem h2
      have := hB.base_lt_fin hj (by have := base_le_fin B j; omega)
      exact hmem.2 (mem_covered_region.mpr ⟨j, hj, le_rfl, this⟩)

/-- Every free address is in the range of a pair. -/
theorem exists_meets_of_mem (hA : Proper A) {x : ℕ} (hx : x ∈ covered A.regions)
    (hfree : x ∉ covered B.regions) :
    ∃ i j, Meets A B i j ∧ (part A B i j).1 ≤ x ∧ x < (part A B i j).2 := by
  obtain ⟨i, hi, hlo, hfin⟩ := mem_covered_region.mp hx
  have hmax : (A.region i).fin ≤ PHYS_ADDR_MAX := hA.rep.fin_le i hi
  obtain ⟨j, hj, hgap, hgap'⟩ := exists_gap hfree (by omega)
  refine ⟨i, j, ⟨hi, hj, by omega, by omega⟩, ?_⟩
  unfold part
  dsimp only
  omega

/-- **Every maximal range** is that of a pair. -/
theorem exists_meets (hA : Proper A) (hB : Proper B) {lo hi : ℕ} (h : IsRun (freeSet A B) lo hi) :
    ∃ i j, Meets A B i j ∧ part A B i j = (lo, hi) := by
  obtain ⟨hmem, hfree⟩ := h.subset ⟨le_rfl, h.lt⟩
  obtain ⟨i, j, hm, hlo, hhi⟩ := exists_meets_of_mem hA hmem hfree
  obtain ⟨h1, h2⟩ := (hm.isRun hA hB).unique h hlo hhi le_rfl h.lt
  exact ⟨i, j, hm, Prod.ext h1 h2⟩

theorem Lists.mem_iff {P : ℕ → ℕ → Prop} {L : List (ℕ × ℕ)} (hA : Proper A) (hB : Proper B)
    (h : Lists A B P L) (hP : ∀ i j, P i j ↔ Meets A B i j) (r : ℕ × ℕ) :
    r ∈ L ↔ IsRun (freeSet A B) r.1 r.2 := by
  rw [h r]
  constructor
  · rintro ⟨i, j, hp, rfl⟩
    exact ((hP i j).mp hp).isRun hA hB
  · intro hr
    obtain ⟨i, j, hm, he⟩ := exists_meets hA hB hr
    exact ⟨i, j, (hP i j).mpr hm, he⟩

/-- The list of the maximal ranges, in increasing order. -/
structure IsFreeList (A B : MemblockType) (L : List (ℕ × ℕ)) : Prop where
  increasing : L.Pairwise fun r r' => r.2 < r'.1
  mem : ∀ lo hi, (lo, hi) ∈ L ↔ IsRun (covered A.regions \ covered B.regions) lo hi

/-- Ranges in weak order that are maximal are in strict order. -/
theorem isFreeList_of_le {L : List (ℕ × ℕ)} (hle : L.Pairwise fun r r' => r.2 ≤ r'.1)
    (hmem : ∀ r, r ∈ L ↔ IsRun (freeSet A B) r.1 r.2) : IsFreeList A B L := by
  refine ⟨hle.imp_of_mem fun {r r'} hr hr' hrr => ?_, fun lo hi => hmem (lo, hi)⟩
  have h1 := (hmem r).mp hr
  have h2 := (hmem r').mp hr'
  rcases Nat.eq_or_lt_of_le hrr with heq | hlt
  · exact absurd (heq ▸ h2.subset ⟨le_rfl, h2.lt⟩) h1.right
  · exact hlt

theorem IsFreeList.unique {L M : List (ℕ × ℕ)} (hL : IsFreeList A B L) (hM : IsFreeList A B M) :
    L = M := by
  have hstart : ∀ {N : List (ℕ × ℕ)}, IsFreeList A B N → N.Pairwise fun r r' => r.1 < r'.1 := by
    intro N hN
    refine hN.increasing.imp_of_mem fun {r r'} hr _ hrr => ?_
    have := ((hN.mem r.1 r.2).mp hr).lt
    omega
  exact eq_of_sorted (fun a b h h' => by omega) (hstart hL) (hstart hM)
    fun r => (hL.mem r.1 r.2).trans (hM.mem r.1 r.2).symm

theorem forEachFreeMemRange_isFreeList (hA : Proper A) (hB : Proper B) {n : ℕ}
    (hn : A.cnt + B.cnt < n) :
    ∃ L, forEachFreeMemRange A B n = some L ∧ IsFreeList A B L := by
  obtain ⟨n, rfl⟩ := Nat.exists_eq_succ_of_ne_zero (show n ≠ 0 by omega)
  obtain ⟨L, hL, hle, hmem⟩ := forEachRange_ahead hA hB n 0 0 (Nat.zero_le _) (by omega)
  exact ⟨L, hL, isFreeList_of_le hle (hmem.mem_iff hA hB fun i j =>
    ⟨fun h => h.1, fun h => ⟨h, Nat.zero_le i, Nat.zero_le j⟩⟩)⟩

theorem forEachFreeMemRangeReverse_isFreeList (hA : Proper A) (hB : Proper B) {n : ℕ}
    (hn : A.cnt + B.cnt < n) :
    ∃ L, forEachFreeMemRangeReverse A B n = some L.reverse ∧ IsFreeList A B L := by
  obtain ⟨n, rfl⟩ := Nat.exists_eq_succ_of_ne_zero (show n ≠ 0 by omega)
  obtain ⟨L, hL, hle, hmem⟩ := forEachRange_behind hA hB n A.cnt (B.cnt + 1) le_rfl le_rfl (by omega)
  refine ⟨L.reverse, by rw [List.reverse_reverse]; exact hL,
    isFreeList_of_le (List.pairwise_reverse.mpr hle) fun r => ?_⟩
  rw [List.mem_reverse]
  exact hmem.mem_iff hA hB (fun i j => ⟨fun h => h.1,
    fun h => ⟨h, h.fst_lt, Nat.lt_succ_of_le h.snd_le⟩⟩) r

/-- **Iteration over the free ranges is exact in both directions.** With more rounds than there are
regions and reservations both macros come to their end. They yield the same ranges, one in increasing
order and the other in the reverse order: the maximal ranges of memory without the reserved addresses. -/
theorem forEachFreeMemRange_exact (memory reserved : MemblockType) (hmem : Proper memory)
    (hres : Proper reserved) :
    ∃ L : List (ℕ × ℕ), (∀ n, memory.cnt + reserved.cnt < n →
        forEachFreeMemRange memory reserved n = some L ∧
          forEachFreeMemRangeReverse memory reserved n = some L.reverse) ∧
      L.Pairwise (fun r r' => r.2 < r'.1) ∧
      ∀ lo hi, (lo, hi) ∈ L ↔ IsRun (covered memory.regions \ covered reserved.regions) lo hi := by
  obtain ⟨L, -, hL⟩ := forEachFreeMemRange_isFreeList hmem hres (Nat.lt_succ_self _)
  refine ⟨L, fun n hn => ⟨?_, ?_⟩, hL.increasing, hL.mem⟩
  · obtain ⟨M, hM, hfree⟩ := forEachFreeMemRange_isFreeList hmem hres hn
    rw [hM, hfree.unique hL]
  · obtain ⟨M, hM, hfree⟩ := forEachFreeMemRangeReverse_isFreeList hmem hres hn
    rw [hM, hfree.unique hL]

theorem oneBlock_proper : Proper oneBlock.memory ∧ Proper oneBlock.reserved := by
  refine ⟨⟨rep_of_wf ⟨by decide, by decide, List.pairwise_singleton _ _, by decide, by decide,
    Or.inl (by decide), fun _ => by decide⟩, by decide, by decide⟩, ⟨rep_of_wf ⟨by decide, by decide,
    List.pairwise_singleton _ _, by decide, by decide, Or.inl (by decide), fun _ => by decide⟩,
    by decide, by decide⟩⟩

theorem forEachFreeMemRange_exact_oneBlock : ∃ L : List (ℕ × ℕ),
    (∀ n, oneBlock.memory.cnt + oneBlock.reserved.cnt < n →
      forEachFreeMemRange oneBlock.memory oneBlock.reserved n = some L ∧
        forEachFreeMemRangeReverse oneBlock.memory oneBlock.reserved n = some L.reverse) ∧
    L.Pairwise (fun r r' => r.2 < r'.1) ∧ ∀ lo hi, (lo, hi) ∈ L ↔
      IsRun (covered oneBlock.memory.regions \ covered oneBlock.reserved.regions) lo hi :=
  forEachFreeMemRange_exact oneBlock.memory oneBlock.reserved oneBlock_proper.1 oneBlock_proper.2

end HardStack.Memblock.Iterate
