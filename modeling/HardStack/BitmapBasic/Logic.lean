import HardStack.BitmapBasic.Shift

/-! # Operations on whole bitmaps

The operations of `bitmap.c` on two bitmaps go word by word. What they write may lie over what they read,
because a word is read before it is written. Where a result is returned, the mask of the last word keeps
the bits after the bitmap out of it. -/

namespace HardStack.BitmapBasic.Logic

open HardStack.BitmapBasic.Model HardStack.BitmapBasic.Shift

variable {W : ℕ}

/-! ### The operations -/

/-- The first rounds of the loops that write `dst[k] = f(bitmap1[k], bitmap2[k])`. -/
def writeLoop (f : BitVec W → BitVec W → BitVec W) (mem : Memory W) (dst bitmap1 bitmap2 : ℕ) : ℕ → Memory W
  | 0 => mem
  | k + 1 =>
    let mem := writeLoop f mem dst bitmap1 bitmap2 k
    Function.update mem (dst + k) (f (mem (bitmap1 + k)) (mem (bitmap2 + k)))

/-- `__bitmap_or`, which ends without a `return`. -/
def bitmapOr (mem : Memory W) (dst bitmap1 bitmap2 bits : ℕ) : Memory W :=
  writeLoop (· ||| ·) mem dst bitmap1 bitmap2 (BITS_TO_LONGS W bits)

/-- `__bitmap_xor`. -/
def bitmapXor (mem : Memory W) (dst bitmap1 bitmap2 bits : ℕ) : Memory W :=
  writeLoop (· ^^^ ·) mem dst bitmap1 bitmap2 (BITS_TO_LONGS W bits)

/-- `__bitmap_complement`. -/
def bitmapComplement (mem : Memory W) (dst src bits : ℕ) : Memory W :=
  writeLoop (fun v _ => ~~~v) mem dst src src (BITS_TO_LONGS W bits)

/-- The first rounds of the loops with `result |= (dst[k] = f(bitmap1[k], bitmap2[k]))`. -/
def resultLoop (f : BitVec W → BitVec W → BitVec W) (mem : Memory W) (dst bitmap1 bitmap2 : ℕ) :
    ℕ → Memory W × BitVec W
  | 0 => (mem, 0)
  | k + 1 =>
    let (mem, result) := resultLoop f mem dst bitmap1 bitmap2 k
    let word := f (mem (bitmap1 + k)) (mem (bitmap2 + k))
    (Function.update mem (dst + k) word, result ||| word)

/-- The memory, and what is returned. -/
def maskedWrite (f : BitVec W → BitVec W → BitVec W) (mem : Memory W) (dst bitmap1 bitmap2 bits : ℕ) :
    Memory W × Bool :=
  let lim := bits / W
  let (mem, result) := resultLoop f mem dst bitmap1 bitmap2 lim
  if bits % W ≠ 0 then
    let word := f (mem (bitmap1 + lim)) (mem (bitmap2 + lim)) &&& BITMAP_LAST_WORD_MASK W bits
    (Function.update mem (dst + lim) word, result ||| word ≠ 0)
  else (mem, result ≠ 0)

/-- `__bitmap_and`. -/
def bitmapAnd (mem : Memory W) (dst bitmap1 bitmap2 bits : ℕ) : Memory W × Bool :=
  maskedWrite (· &&& ·) mem dst bitmap1 bitmap2 bits

/-- `__bitmap_andnot`. -/
def bitmapAndnot (mem : Memory W) (dst bitmap1 bitmap2 bits : ℕ) : Memory W × Bool :=
  maskedWrite (fun v w => v &&& ~~~w) mem dst bitmap1 bitmap2 bits

/-- The loops that stop at a pair of words, from `k` on. -/
def scanLoop (p : BitVec W → BitVec W → Bool) (mem : Memory W) (bitmap1 bitmap2 : ℕ) : ℕ → ℕ → Bool
  | 0, _ => false
  | n + 1, k =>
    if p (mem (bitmap1 + k)) (mem (bitmap2 + k)) then true else scanLoop p mem bitmap1 bitmap2 n (k + 1)

/-- Whether a pair of words stops the scan; of the last pair the bits that count. -/
def scan (p : BitVec W → BitVec W → Bool) (f : BitVec W → BitVec W → BitVec W) (mem : Memory W)
    (bitmap1 bitmap2 bits : ℕ) : Bool :=
  let lim := bits / W
  if scanLoop p mem bitmap1 bitmap2 lim 0 then true
  else if bits % W ≠ 0 then
    f (mem (bitmap1 + lim)) (mem (bitmap2 + lim)) &&& BITMAP_LAST_WORD_MASK W bits ≠ 0
  else false

/-- `__bitmap_equal`. -/
def bitmapEqual (mem : Memory W) (bitmap1 bitmap2 bits : ℕ) : Bool :=
  !scan (fun v w => v ≠ w) (· ^^^ ·) mem bitmap1 bitmap2 bits

/-- `__bitmap_intersects`. -/
def bitmapIntersects (mem : Memory W) (bitmap1 bitmap2 bits : ℕ) : Bool :=
  scan (fun v w => v &&& w ≠ 0) (· &&& ·) mem bitmap1 bitmap2 bits

/-- `__bitmap_subset`. -/
def bitmapSubset (mem : Memory W) (bitmap1 bitmap2 bits : ℕ) : Bool :=
  !scan (fun v w => v &&& ~~~w ≠ 0) (fun v w => v &&& ~~~w) mem bitmap1 bitmap2 bits

/-- `hweight_long`: the sum of the bits. -/
def hweightLong (w : BitVec W) : ℕ := ∑ j ∈ Finset.range W, (w.getLsbD j).toNat

/-- `w += x` for the `int` `w`. -/
def addInt (w : ℤ) (x : ℕ) : ℤ := (w + x).bmod (2 ^ 32)

/-- The loop of `__bitmap_weight`. -/
def weightLoop (mem : Memory W) (bitmap : ℕ) : ℕ → ℤ
  | 0 => 0
  | k + 1 => addInt (weightLoop mem bitmap k) (hweightLong (mem (bitmap + k)))

/-- `__bitmap_weight`. -/
def bitmapWeight (mem : Memory W) (bitmap bits : ℕ) : ℤ :=
  let lim := bits / W
  let w := weightLoop mem bitmap lim
  if bits % W ≠ 0 then addInt w (hweightLong (mem (bitmap + lim) &&& BITMAP_LAST_WORD_MASK W bits)) else w

/-! ### Words and bits -/

theorem ne_zero_iff {v : BitVec W} : v ≠ 0 ↔ ∃ j < W, v.getLsbD j = true := by
  constructor
  · intro h
    by_contra hno
    push Not at hno
    refine h (BitVec.eq_of_getLsbD_eq fun j hj => ?_)
    rw [Bool.eq_false_iff.mpr (hno j hj)]
    exact BitVec.getLsbD_zero.symm
  · rintro ⟨j, -, hj⟩ rfl
    rw [show (0 : BitVec W) = 0#W from rfl, BitVec.getLsbD_zero] at hj
    cases hj

theorem or_ne_zero {v w : BitVec W} : v ||| w ≠ 0 ↔ v ≠ 0 ∨ w ≠ 0 := by
  show ¬ v ||| w = 0#W ↔ ¬ v = 0#W ∨ ¬ w = 0#W
  rw [BitVec.or_eq_zero_iff, not_and_or]

/-- The mask of a last word that is used in part. -/
theorem lastMask {bits j : ℕ} (hW : W = 32 ∨ W = 64) (h32 : bits < 2 ^ 32) (hpart : bits % W ≠ 0) (hj : j < W) :
    (BITMAP_LAST_WORD_MASK W bits).getLsbD j = decide (j < bits % W) := by
  rw [lastWordMask_getLsbD hW (Nat.pos_of_ne_zero fun h => hpart (by rw [h, Nat.zero_mod])) h32 hj,
    decide_eq_decide]
  rcases hW with rfl | rfl <;> omega

/-- A bit of the bitmap is in a full word, or in the used part of the last one. -/
theorem lt_iff {bits i : ℕ} (hW : 0 < W) :
    i < bits ↔ i / W < bits / W ∨ (i / W = bits / W ∧ i % W < bits % W) := by
  have hi := Nat.div_add_mod i W
  have hb := Nat.div_add_mod bits W
  have hmi := Nat.mod_lt i hW
  have hmb := Nat.mod_lt bits hW
  constructor
  · intro h
    rcases Nat.lt_or_ge (i / W) (bits / W) with hlt | hge
    · exact Or.inl hlt
    · have heq : i / W = bits / W := le_antisymm (Nat.div_le_div_right h.le) hge
      rw [heq] at hi
      exact Or.inr ⟨heq, by omega⟩
  · rintro (hlt | ⟨heq, hlt⟩)
    · have hstep : W * (i / W + 1) ≤ W * (bits / W) := Nat.mul_le_mul_left W hlt
      rw [Nat.mul_succ] at hstep
      omega
    · rw [heq] at hi
      omega

/-! ### What is written -/

theorem writeLoop_apply (f : BitVec W → BitVec W → BitVec W) (mem : Memory W) {dst bitmap1 bitmap2 lim : ℕ}
    (h1 : Apart lim dst bitmap1) (h2 : Apart lim dst bitmap2) {n : ℕ} (hn : n ≤ lim) (a : ℕ) :
    writeLoop f mem dst bitmap1 bitmap2 n a =
      if dst ≤ a ∧ a < dst + n then f (mem (bitmap1 + (a - dst))) (mem (bitmap2 + (a - dst))) else mem a := by
  unfold Apart at h1 h2
  induction n generalizing a with
  | zero => rw [if_neg (by omega)]; rfl
  | succ n ih =>
    rw [writeLoop]
    rcases eq_or_ne a (dst + n) with rfl | hne
    · rw [Function.update_self, if_pos (by omega), ih (by omega), ih (by omega), if_neg (by omega),
        if_neg (by omega), Nat.add_sub_cancel_left]
    · rw [Function.update_of_ne hne, ih (by omega)]
      by_cases ha : dst ≤ a ∧ a < dst + n
      · rw [if_pos ha, if_pos (by omega)]
      · rw [if_neg ha, if_neg (by omega)]

theorem resultLoop_fst (f : BitVec W → BitVec W → BitVec W) (mem : Memory W) (dst bitmap1 bitmap2 n : ℕ) :
    (resultLoop f mem dst bitmap1 bitmap2 n).1 = writeLoop f mem dst bitmap1 bitmap2 n := by
  induction n with
  | zero => rfl
  | succ n ih => rw [resultLoop, writeLoop, ← ih]

theorem resultLoop_snd (f : BitVec W → BitVec W → BitVec W) (mem : Memory W) {dst bitmap1 bitmap2 lim : ℕ}
    (h1 : Apart lim dst bitmap1) (h2 : Apart lim dst bitmap2) {n : ℕ} (hn : n ≤ lim) :
    (resultLoop f mem dst bitmap1 bitmap2 n).2 ≠ 0 ↔
      ∃ k < n, f (mem (bitmap1 + k)) (mem (bitmap2 + k)) ≠ 0 := by
  induction n with
  | zero => simp [resultLoop]
  | succ n ih =>
    have hread : ∀ b, Apart lim dst b → writeLoop f mem dst bitmap1 bitmap2 n (b + n) = mem (b + n) := by
      intro b hb
      unfold Apart at hb
      rw [writeLoop_apply f mem h1 h2 (by omega), if_neg (by omega)]
    rw [resultLoop]
    dsimp only
    rw [resultLoop_fst, hread _ h1, hread _ h2, or_ne_zero, ih (by omega)]
    constructor
    · rintro (⟨k, hk, hne⟩ | hne)
      · exact ⟨k, by omega, hne⟩
      · exact ⟨n, by omega, hne⟩
    · rintro ⟨k, hk, hne⟩
      rcases Nat.lt_succ_iff_lt_or_eq.mp hk with hlt | rfl
      · exact Or.inl ⟨k, hlt, hne⟩
      · exact Or.inr hne

/-! ### Bit by bit -/

/-- The words are computed bit by bit. -/
def Bitwise (f : BitVec W → BitVec W → BitVec W) (g : Bool → Bool → Bool) : Prop :=
  ∀ v w : BitVec W, ∀ j < W, (f v w).getLsbD j = g (v.getLsbD j) (w.getLsbD j)

section

variable {f : BitVec W → BitVec W → BitVec W} {g : Bool → Bool → Bool} {bits : ℕ}

theorem lim_le (hW : W = 32 ∨ W = 64) (bits : ℕ) : bits / W ≤ words W bits := by
  unfold words
  rcases hW with rfl | rfl <;> omega

theorem lim_lt (hW : W = 32 ∨ W = 64) (hpart : bits % W ≠ 0) : bits / W < words W bits := by
  unfold words
  rcases hW with rfl | rfl <;> omega

/-- A bit below `bits`, by its word. -/
theorem exists_bit (hW : 0 < W) {P : ℕ → ℕ → Prop} : (∃ i < bits, P (i / W) (i % W)) ↔
    (∃ k < bits / W, ∃ j < W, P k j) ∨ (bits % W ≠ 0 ∧ ∃ j < bits % W, P (bits / W) j) := by
  have hdiv : ∀ k j, j < W → (W * k + j) / W = k := fun k j hj => by
    rw [Nat.mul_add_div hW, Nat.div_eq_of_lt hj, add_zero]
  have hmod : ∀ k j, j < W → (W * k + j) % W = j := fun k j hj => by
    rw [Nat.mul_add_mod, Nat.mod_eq_of_lt hj]
  constructor
  · rintro ⟨i, hi, hP⟩
    rcases (lt_iff hW).mp hi with hlt | ⟨heq, hlt⟩
    · exact Or.inl ⟨_, hlt, _, Nat.mod_lt i hW, hP⟩
    · exact Or.inr ⟨by omega, _, hlt, heq ▸ hP⟩
  · rintro (⟨k, hk, j, hj, hP⟩ | ⟨-, j, hj, hP⟩)
    · refine ⟨W * k + j, (lt_iff hW).mpr (Or.inl ?_), ?_⟩
      · rwa [hdiv k j hj]
      · rwa [hdiv k j hj, hmod k j hj]
    · have hjW := hj.trans (Nat.mod_lt bits hW)
      refine ⟨W * (bits / W) + j, (lt_iff hW).mpr (Or.inr ?_), ?_⟩
      · rw [hdiv _ j hjW, hmod _ j hjW]
        exact ⟨rfl, hj⟩
      · rwa [hdiv _ j hjW, hmod _ j hjW]

theorem word_ne_zero (hf : Bitwise f g) {v w : BitVec W} :
    f v w ≠ 0 ↔ ∃ j < W, g (v.getLsbD j) (w.getLsbD j) = true := by
  rw [ne_zero_iff]
  exact exists_congr fun j => and_congr_right fun hj => by rw [hf v w j hj]

theorem masked_ne_zero (hW : W = 32 ∨ W = 64) (h32 : bits < 2 ^ 32) (hf : Bitwise f g)
    (hpart : bits % W ≠ 0) {v w : BitVec W} : f v w &&& BITMAP_LAST_WORD_MASK W bits ≠ 0 ↔
      ∃ j < bits % W, g (v.getLsbD j) (w.getLsbD j) = true := by
  have hlt : bits % W < W := Nat.mod_lt bits (by omega)
  rw [ne_zero_iff]
  constructor
  · rintro ⟨j, hj, hbit⟩
    rw [BitVec.getLsbD_and, lastMask hW h32 hpart hj, Bool.and_eq_true, hf v w j hj, decide_eq_true_eq] at hbit
    exact ⟨j, hbit.2, hbit.1⟩
  · rintro ⟨j, hj, hbit⟩
    refine ⟨j, hj.trans hlt, ?_⟩
    rw [BitVec.getLsbD_and, lastMask hW h32 hpart (hj.trans hlt), Bool.and_eq_true, hf v w j (hj.trans hlt),
      decide_eq_true_eq]
    exact ⟨hbit, hj⟩

theorem scanLoop_iff (p : BitVec W → BitVec W → Bool) (mem : Memory W) (bitmap1 bitmap2 n k : ℕ) :
    scanLoop p mem bitmap1 bitmap2 n k = true ↔
      ∃ d < n, p (mem (bitmap1 + (k + d))) (mem (bitmap2 + (k + d))) = true := by
  induction n generalizing k with
  | zero => simp [scanLoop]
  | succ n ih =>
    rw [scanLoop]
    split_ifs with h
    · exact ⟨fun _ => ⟨0, by omega, h⟩, fun _ => rfl⟩
    · rw [ih]
      constructor
      · rintro ⟨d, hd, hp⟩
        refine ⟨d + 1, by omega, ?_⟩
        rwa [show k + (d + 1) = k + 1 + d by omega]
      · rintro ⟨d, hd, hp⟩
        cases d with
        | zero => exact absurd hp h
        | succ d =>
          refine ⟨d, by omega, ?_⟩
          rwa [show k + 1 + d = k + (d + 1) by omega]

/-- **A scan** sees the bits of the bitmap, and no other. -/
theorem scan_iff (hW : W = 32 ∨ W = 64) (h32 : bits < 2 ^ 32) (hf : Bitwise f g)
    {p : BitVec W → BitVec W → Bool} (hp : ∀ v w, p v w = true ↔ f v w ≠ 0) (mem : Memory W)
    (bitmap1 bitmap2 : ℕ) : scan p f mem bitmap1 bitmap2 bits = true ↔
      ∃ i < bits, g (bit (arrayAt mem bitmap1) i) (bit (arrayAt mem bitmap2) i) = true := by
  have hloop : scanLoop p mem bitmap1 bitmap2 (bits / W) 0 = true ↔ ∃ k < bits / W, ∃ j < W,
      g ((mem (bitmap1 + k)).getLsbD j) ((mem (bitmap2 + k)).getLsbD j) = true := by
    rw [scanLoop_iff]
    refine exists_congr fun k => and_congr_right fun _ => ?_
    rw [Nat.zero_add, hp, word_ne_zero hf]
  have hbits := @exists_bit W bits (by omega) fun k j =>
    g ((mem (bitmap1 + k)).getLsbD j) ((mem (bitmap2 + k)).getLsbD j) = true
  refine Iff.trans ?_ hbits.symm
  unfold scan
  dsimp only
  split_ifs with h hpart
  · exact ⟨fun _ => Or.inl (hloop.mp h), fun _ => rfl⟩
  · rw [decide_eq_true_eq, masked_ne_zero hW h32 hf hpart]
    exact ⟨fun h' => Or.inr ⟨hpart, h'⟩, fun h' => (h'.resolve_left (mt hloop.mpr h)).2⟩
  · exact ⟨fun h' => absurd h' (by decide), fun h' => h'.elim (fun h' => absurd (hloop.mpr h') h)
      fun h' => absurd h'.1 hpart⟩

theorem maskedWrite_eq (f : BitVec W → BitVec W → BitVec W) (mem : Memory W)
    (dst bitmap1 bitmap2 bits : ℕ) : maskedWrite f mem dst bitmap1 bitmap2 bits =
      if bits % W ≠ 0 then
        let r := resultLoop f mem dst bitmap1 bitmap2 (bits / W)
        let word := f (r.1 (bitmap1 + bits / W)) (r.1 (bitmap2 + bits / W)) &&& BITMAP_LAST_WORD_MASK W bits
        (Function.update r.1 (dst + bits / W) word, (r.2 ||| word ≠ 0 : Bool))
      else
        let r := resultLoop f mem dst bitmap1 bitmap2 (bits / W)
        (r.1, (r.2 ≠ 0 : Bool)) := rfl

/-- **A masked write**: the bits, what is returned, and the rest of the memory. -/
theorem maskedWrite_spec (hW : W = 32 ∨ W = 64) (h32 : bits < 2 ^ 32) (hf : Bitwise f g) (mem : Memory W)
    {dst bitmap1 bitmap2 : ℕ} (h1 : Apart (words W bits) dst bitmap1) (h2 : Apart (words W bits) dst bitmap2) :
    (∀ i < bits, bit (arrayAt (maskedWrite f mem dst bitmap1 bitmap2 bits).1 dst) i =
      g (bit (arrayAt mem bitmap1) i) (bit (arrayAt mem bitmap2) i)) ∧
    ((maskedWrite f mem dst bitmap1 bitmap2 bits).2 = true ↔
      ∃ i < bits, g (bit (arrayAt mem bitmap1) i) (bit (arrayAt mem bitmap2) i) = true) ∧
    ∀ a, a < dst ∨ dst + words W bits ≤ a → (maskedWrite f mem dst bitmap1 bitmap2 bits).1 a = mem a := by
  have hpos : 0 < W := by omega
  have hlim := lim_le hW bits
  have hout : ∀ a, a < dst ∨ dst + words W bits ≤ a → ¬ (dst ≤ a ∧ a < dst + bits / W) := fun a ha => by omega
  have hout' : ∀ a, a < dst ∨ dst + words W bits ≤ a → bits / W < words W bits → a ≠ dst + bits / W := by
    intro a ha hlt
    generalize bits / W = q at hlt ⊢
    omega
  have happly := writeLoop_apply f mem h1 h2 hlim
  have hresult := resultLoop_snd f mem h1 h2 hlim
  have hwords : (∃ k < bits / W, f (mem (bitmap1 + k)) (mem (bitmap2 + k)) ≠ 0) ↔ ∃ k < bits / W, ∃ j < W,
      g ((mem (bitmap1 + k)).getLsbD j) ((mem (bitmap2 + k)).getLsbD j) = true :=
    exists_congr fun k => and_congr_right fun _ => word_ne_zero hf
  have hbits := @exists_bit W bits hpos fun k j =>
    g ((mem (bitmap1 + k)).getLsbD j) ((mem (bitmap2 + k)).getLsbD j) = true
  have hfull : ∀ i, i / W < bits / W → writeLoop f mem dst bitmap1 bitmap2 (bits / W) (dst + i / W) =
      f (mem (bitmap1 + i / W)) (mem (bitmap2 + i / W)) := by
    intro i hi
    rw [happly, if_pos ⟨Nat.le_add_right _ _, Nat.add_lt_add_left hi _⟩, Nat.add_sub_cancel_left]
  rw [maskedWrite_eq]
  dsimp only
  rw [resultLoop_fst]
  split_ifs with hpart
  · -- the last word is used in part
    have hlt := lim_lt hW hpart
    have hread : ∀ b, Apart (words W bits) dst b →
        writeLoop f mem dst bitmap1 bitmap2 (bits / W) (b + bits / W) = mem (b + bits / W) := by
      intro b hb
      unfold Apart at hb
      rw [happly, if_neg (by omega)]
    rw [hread _ h1, hread _ h2]
    refine ⟨fun i hi => ?_, ?_, fun a ha => ?_⟩
    · have hj := Nat.mod_lt i hpos
      show ((Function.update _ _ _ : Memory W) (dst + i / W)).getLsbD (i % W) = _
      rcases (lt_iff hpos).mp hi with hw | ⟨heq, hm⟩
      · rw [Function.update_of_ne (by omega), hfull i hw, hf _ _ _ hj]
        rfl
      · rw [heq, Function.update_self, BitVec.getLsbD_and, lastMask hW h32 hpart hj, decide_eq_true hm,
          Bool.and_true, hf _ _ _ hj, ← heq]
        rfl
    · rw [decide_eq_true_eq, or_ne_zero, hresult, hwords, masked_ne_zero hW h32 hf hpart]
      exact Iff.trans (or_congr_right ⟨fun h => ⟨hpart, h⟩, fun h => h.2⟩) hbits.symm
    · dsimp only
      rw [Function.update_of_ne (hout' a ha hlt), happly, if_neg (hout a ha)]
  · refine ⟨fun i hi => ?_, ?_, fun a ha => ?_⟩
    · rcases (lt_iff hpos).mp hi with hw | ⟨-, hm⟩
      · show (writeLoop f mem dst bitmap1 bitmap2 (bits / W) (dst + i / W)).getLsbD (i % W) = _
        rw [hfull i hw, hf _ _ _ (Nat.mod_lt i hpos)]
        rfl
      · omega
    · rw [decide_eq_true_eq, hresult, hwords]
      exact Iff.trans ⟨Or.inl, fun h => h.resolve_right fun h => hpart h.1⟩ hbits.symm
    · dsimp only
      rw [happly, if_neg (hout a ha)]

/-- A write of all words. -/
theorem write_spec (hW : W = 32 ∨ W = 64) (hf : Bitwise f g) (mem : Memory W) {dst bitmap1 bitmap2 : ℕ}
    (h1 : Apart (words W bits) dst bitmap1) (h2 : Apart (words W bits) dst bitmap2) :
    (∀ i < bits, bit (arrayAt (writeLoop f mem dst bitmap1 bitmap2 (words W bits)) dst) i =
      g (bit (arrayAt mem bitmap1) i) (bit (arrayAt mem bitmap2) i)) ∧
    ∀ a, a < dst ∨ dst + words W bits ≤ a →
      writeLoop f mem dst bitmap1 bitmap2 (words W bits) a = mem a := by
  have happly := writeLoop_apply f mem h1 h2 le_rfl
  refine ⟨fun i hi => ?_, fun a ha => by rw [happly, if_neg (by omega)]⟩
  have hi' : i / W < words W bits := by
    unfold words
    rcases hW with rfl | rfl <;> omega
  show (writeLoop f mem dst bitmap1 bitmap2 (words W bits) (dst + i / W)).getLsbD (i % W) = _
  rw [happly, if_pos ⟨Nat.le_add_right _ _, Nat.add_lt_add_left hi' _⟩, Nat.add_sub_cancel_left,
    hf _ _ _ (Nat.mod_lt i (by omega))]
  rfl

end

/-! ### Weight -/

theorem addInt_bmod (n x : ℕ) : addInt ((n : ℤ).bmod (2 ^ 32)) x = ((n + x : ℕ) : ℤ).bmod (2 ^ 32) := by
  rw [addInt, Int.bmod_add_bmod, Nat.cast_add]

theorem weightLoop_eq (mem : Memory W) (bitmap n : ℕ) : weightLoop mem bitmap n =
    ((∑ i ∈ Finset.range (n * W), (bit (arrayAt mem bitmap) i).toNat : ℕ) : ℤ).bmod (2 ^ 32) := by
  induction n with
  | zero => rw [Nat.zero_mul, Finset.sum_range_zero]; rfl
  | succ n ih =>
    have hword : hweightLong (mem (bitmap + n)) =
        ∑ j ∈ Finset.range W, (bit (arrayAt mem bitmap) (n * W + j)).toNat := by
      unfold hweightLong
      exact Finset.sum_congr rfl fun j hj => by rw [bit_arrayAt mem bitmap n (Finset.mem_range.mp hj)]
    rw [weightLoop, ih, addInt_bmod, Nat.succ_mul, Finset.sum_range_add, hword]

theorem hweightLong_masked {bits : ℕ} (hW : W = 32 ∨ W = 64) (h32 : bits < 2 ^ 32) (hpart : bits % W ≠ 0)
    (v : BitVec W) : hweightLong (v &&& BITMAP_LAST_WORD_MASK W bits) =
      ∑ j ∈ Finset.range (bits % W), (v.getLsbD j).toNat := by
  have hlt : bits % W < W := Nat.mod_lt bits (by omega)
  unfold hweightLong
  refine (Finset.sum_subset_zero_on_sdiff (Finset.range_subset_range.mpr hlt.le) (fun j hj => ?_)
    fun j hj => ?_).symm
  · obtain ⟨hj, hno⟩ := Finset.mem_sdiff.mp hj
    rw [BitVec.getLsbD_and, lastMask hW h32 hpart (Finset.mem_range.mp hj),
      decide_eq_false (by simpa using hno), Bool.and_false]
    rfl
  · have hj := Finset.mem_range.mp hj
    rw [BitVec.getLsbD_and, lastMask hW h32 hpart (hj.trans hlt), decide_eq_true hj, Bool.and_true]

theorem bitmapWeight_eq {bits : ℕ} (hW : W = 32 ∨ W = 64) (h32 : bits < 2 ^ 32) (mem : Memory W) (bitmap : ℕ) :
    bitmapWeight mem bitmap bits =
      (((Finset.range bits).filter fun i => bit (arrayAt mem bitmap) i = true).card : ℤ).bmod (2 ^ 32) := by
  have hpos : 0 < W := by omega
  have hcard : ((Finset.range bits).filter fun i => bit (arrayAt mem bitmap) i = true).card =
      ∑ i ∈ Finset.range (bits / W * W + bits % W), (bit (arrayAt mem bitmap) i).toNat := by
    rw [Finset.card_filter, Nat.mul_comm, Nat.div_add_mod]
    exact Finset.sum_congr rfl fun i _ => by cases bit (arrayAt mem bitmap) i <;> rfl
  rw [hcard, Finset.sum_range_add]
  unfold bitmapWeight
  dsimp only
  split_ifs with hpart
  · have hword : hweightLong (mem (bitmap + bits / W) &&& BITMAP_LAST_WORD_MASK W bits) =
        ∑ j ∈ Finset.range (bits % W), (bit (arrayAt mem bitmap) (bits / W * W + j)).toNat := by
      rw [hweightLong_masked hW h32 hpart]
      exact Finset.sum_congr rfl fun j hj => by
        rw [bit_arrayAt mem bitmap _ ((Finset.mem_range.mp hj).trans (Nat.mod_lt bits hpos))]
    rw [weightLoop_eq, addInt_bmod, hword]
  · rw [not_not.mp hpart, Finset.sum_range_zero, Nat.add_zero, weightLoop_eq]

/-! ### The operations on bitmaps -/

theorem and_bitwise : @Bitwise W (· &&& ·) (· && ·) := fun _ _ _ _ => BitVec.getLsbD_and

theorem or_bitwise : @Bitwise W (· ||| ·) (· || ·) := fun _ _ _ _ => BitVec.getLsbD_or

theorem xor_bitwise : @Bitwise W (· ^^^ ·) (· ^^ ·) := fun _ _ _ _ => BitVec.getLsbD_xor

theorem andnot_bitwise : @Bitwise W (fun v w => v &&& ~~~w) fun a b => a && !b := fun v w j hj => by
  rw [BitVec.getLsbD_and, BitVec.getLsbD_not, decide_eq_true hj, Bool.true_and]

theorem not_bitwise : @Bitwise W (fun v _ => ~~~v) fun a _ => !a := fun v w j hj => by
  rw [BitVec.getLsbD_not, decide_eq_true hj, Bool.true_and]

/-- **The operations that write** are the Boolean ones on every bit below `bits`, also where `dst` is one of
the bitmaps, and leave the words after the bitmap; `__bitmap_and` and `__bitmap_andnot` return whether a bit
of the result is set, whatever the bits after the bitmap are. -/
theorem bitmap_writes (hW : W = 32 ∨ W = 64) (mem : Memory W) (dst bitmap1 bitmap2 bits : ℕ)
    (hpos : 0 < bits) (h32 : bits < 2 ^ 32) (hwrap : bits + W ≤ 2 ^ W)
    (h1 : Apart (words W bits) dst bitmap1) (h2 : Apart (words W bits) dst bitmap2) :
    let a := bit (arrayAt mem bitmap1)
    let b := bit (arrayAt mem bitmap2)
    let After (m : Memory W) (c : ℕ → Bool) := (∀ i < bits, bit (arrayAt m dst) i = c i) ∧
      ∀ x, x < dst ∨ dst + words W bits ≤ x → m x = mem x
    After (bitmapAnd mem dst bitmap1 bitmap2 bits).1 (fun i => a i && b i) ∧
    ((bitmapAnd mem dst bitmap1 bitmap2 bits).2 = true ↔ ∃ i < bits, (a i && b i) = true) ∧
    After (bitmapAndnot mem dst bitmap1 bitmap2 bits).1 (fun i => a i && !b i) ∧
    ((bitmapAndnot mem dst bitmap1 bitmap2 bits).2 = true ↔ ∃ i < bits, (a i && !b i) = true) ∧
    After (bitmapOr mem dst bitmap1 bitmap2 bits) (fun i => a i || b i) ∧
    After (bitmapXor mem dst bitmap1 bitmap2 bits) (fun i => a i ^^ b i) ∧
    After (bitmapComplement mem dst bitmap1 bits) fun i => !a i := by
  intro a b After
  have hlim := BITS_TO_LONGS_eq hW hpos h32 hwrap
  obtain ⟨hand, hand2, hand3⟩ := maskedWrite_spec hW h32 and_bitwise mem h1 h2
  obtain ⟨hnot, hnot2, hnot3⟩ := maskedWrite_spec hW h32 andnot_bitwise mem h1 h2
  unfold bitmapOr bitmapXor bitmapComplement
  rw [hlim]
  exact ⟨⟨hand, hand3⟩, hand2, ⟨hnot, hnot3⟩, hnot2, write_spec hW or_bitwise mem h1 h2,
    write_spec hW xor_bitwise mem h1 h2, write_spec hW not_bitwise mem h1 h1⟩

/-- **The operations that compare** see the bits below `bits` and no other: equality, a common bit, inclusion,
and the number of the bits that are set, as an `int`. -/
theorem bitmap_compares (hW : W = 32 ∨ W = 64) (mem : Memory W) (bitmap1 bitmap2 bits : ℕ)
    (h32 : bits < 2 ^ 32) :
    let a := bit (arrayAt mem bitmap1)
    let b := bit (arrayAt mem bitmap2)
    (bitmapEqual mem bitmap1 bitmap2 bits = true ↔ ∀ i < bits, a i = b i) ∧
    (bitmapIntersects mem bitmap1 bitmap2 bits = true ↔ ∃ i < bits, a i = true ∧ b i = true) ∧
    (bitmapSubset mem bitmap1 bitmap2 bits = true ↔ ∀ i < bits, a i = true → b i = true) ∧
    bitmapWeight mem bitmap1 bits =
      (((Finset.range bits).filter fun i => a i = true).card : ℤ).bmod (2 ^ 32) := by
  intro a b
  have hne : ∀ v w : BitVec W, decide (v ≠ w) = true ↔ v ^^^ w ≠ 0 := by
    intro v w
    rw [decide_eq_true_eq, not_iff_not]
    exact BitVec.xor_eq_zero_iff.symm
  have hequal := scan_iff hW h32 xor_bitwise hne mem bitmap1 bitmap2
  have hcommon := scan_iff hW h32 and_bitwise (fun v w => decide_eq_true_iff) mem bitmap1 bitmap2
  have hsubset := scan_iff hW h32 andnot_bitwise (fun v w => decide_eq_true_iff) mem bitmap1 bitmap2
  refine ⟨?_, ?_, ?_, bitmapWeight_eq hW h32 mem bitmap1⟩
  · rw [bitmapEqual, Bool.not_eq_true', Bool.eq_false_iff, ne_eq, hequal]
    push Not
    refine forall₂_congr fun i _ => ?_
    show ¬ (a i ^^ b i) = true ↔ a i = b i
    cases a i <;> cases b i <;> decide
  · rw [bitmapIntersects, hcommon]
    exact exists_congr fun i => and_congr_right fun _ => Bool.and_eq_true_iff
  · rw [bitmapSubset, Bool.not_eq_true', Bool.eq_false_iff, ne_eq, hsubset]
    push Not
    refine forall₂_congr fun i _ => ?_
    show ¬ (a i && !b i) = true ↔ (a i = true → b i = true)
    cases a i <;> cases b i <;> decide

/-- In place, with the words after the bitmaps in between. -/
theorem bitmap_writes_inPlace : ∃ mem : Memory 64, mem 0 = 12 ∧ mem 2 = 10 ∧
    bit (arrayAt (bitmapXor mem 0 0 2 70) 0) 1 = true ∧ bitmapXor mem 0 0 2 70 2 = 10 := by
  obtain ⟨-, -, -, -, -, ⟨hbits, hrest⟩, -⟩ := bitmap_writes (Or.inr rfl)
    (fun a => if a = 0 then 12 else if a = 2 then 10 else 0) 0 0 2 70 (by decide) (by decide) (by decide)
    (Or.inl rfl) (Or.inr (Or.inl (by decide)))
  refine ⟨fun a => if a = 0 then 12 else if a = 2 then 10 else 0, rfl, rfl, ?_, ?_⟩
  · rw [hbits 1 (by decide)]
    decide
  · rw [hrest 2 (Or.inr (by decide))]
    rfl

/-- A bit after the bitmaps does not count. -/
theorem bitmap_compares_unused :
    bitmapEqual (fun a => if a = 0 then 5 else 13 : Memory 32) 0 1 3 = true ∧
      bitmapWeight (fun a => if a = 0 then 5 else 13 : Memory 32) 1 3 = 2 := by
  obtain ⟨hequal, -, -, -⟩ := bitmap_compares (Or.inl rfl) (fun a => if a = 0 then 5 else 13) 0 1 3 (by decide)
  obtain ⟨-, -, -, hweight⟩ := bitmap_compares (Or.inl rfl) (fun a => if a = 0 then 5 else 13) 1 1 3 (by decide)
  exact ⟨hequal.mpr (by decide), hweight.trans (by decide)⟩

end HardStack.BitmapBasic.Logic
