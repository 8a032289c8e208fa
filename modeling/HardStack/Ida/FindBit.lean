import HardStack.BitmapBasic.Search

/-! # The search for a clear bit in `Algorithem/IDA/Basic`

`_find_next_bit` of `ida.c` with words of 64 bits. It is the function of the same name of
`Algorithem/bitmap/Basic`, with a temporary of type `unsigned int`: a word is cut down to its low half
when it is fetched. So it is that search on the low halves alone. -/

namespace HardStack.Ida.FindBit

open HardStack.Lib HardStack.BitmapBasic.Model
open HardStack.BitmapBasic.Search (getLsbD_low sought sought_zero findNextBitIn_spec findNextBitIn_found
  findNextBitIn_sound findNextZeroBit_spec)

/-! ### The function -/

/-- A word of `addr1`, or of its conjunction with `addr2`, inverted by `invert`, as it gets into `tmp`. -/
def fetchInt (addr1 : ℕ → BitVec 64) (addr2 : Option (ℕ → BitVec 64)) (invert : BitVec 64) (start : ℕ) :
    BitVec 32 :=
  let tmp := (addr1 (start / 64)).setWidth 32
  let tmp := addr2.elim tmp fun a => (tmp.setWidth 64 &&& a (start / 64)).setWidth 32
  (tmp.setWidth 64 ^^^ invert).setWidth 32

/-- The loop of `_find_next_bit`. -/
def findNextIntLoop (addr1 : ℕ → BitVec 64) (addr2 : Option (ℕ → BitVec 64)) (nbits : ℕ)
    (invert : BitVec 64) : ℕ → (tmp : BitVec 32) → (start : ℕ) → Option ℕ
  | 0, _, _ => none
  | n + 1, tmp, start =>
    if tmp = 0 then
      let start := (start + 64) % 2 ^ 64
      if start ≥ nbits then some nbits
      else findNextIntLoop addr1 addr2 nbits invert n (fetchInt addr1 addr2 invert start) start
    else some (min ((start + ffs (tmp.setWidth 64)) % 2 ^ 64) nbits)

/-- `_find_next_bit`. -/
def findNextIntIn (addr1 : ℕ → BitVec 64) (addr2 : Option (ℕ → BitVec 64)) (nbits start : ℕ)
    (invert : BitVec 64) (fuel : ℕ) : Option ℕ :=
  if start ≥ nbits then some nbits
  else
    let tmp := fetchInt addr1 addr2 invert start
    let tmp := (tmp.setWidth 64 &&& BITMAP_FIRST_WORD_MASK 64 start).setWidth 32
    let start := start &&& (2 ^ 64 - 1 - (64 - 1))
    findNextIntLoop addr1 addr2 nbits invert fuel tmp start

/-- `find_next_zero_bit`. -/
def findNextZeroBit (addr : ℕ → BitVec 64) (size offset fuel : ℕ) : Option ℕ :=
  findNextIntIn addr none size offset (BitVec.allOnes 64) fuel

/-! ### The low halves -/

/-- The low halves of the words that are searched. -/
def lowWords (addr1 : ℕ → BitVec 64) (addr2 : Option (ℕ → BitVec 64)) (invert : BitVec 64) (q : ℕ) :
    BitVec 64 :=
  fetch addr1 addr2 invert (64 * q) &&& 0xffffffff

section

variable {addr1 : ℕ → BitVec 64} {addr2 : Option (ℕ → BitVec 64)} {invert : BitVec 64} {nbits : ℕ}

theorem lowWords_getLsbD (q j : ℕ) : (lowWords addr1 addr2 invert q).getLsbD j =
    ((fetch addr1 addr2 invert (64 * q)).getLsbD j && decide (j < 32)) := by
  unfold lowWords
  rw [BitVec.getLsbD_and, getLsbD_low]

theorem fetch_lowWords (start : ℕ) :
    fetch (lowWords addr1 addr2 invert) none 0 start = lowWords addr1 addr2 invert (start / 64) :=
  BitVec.xor_zero

theorem fetch_start (start : ℕ) :
    fetch addr1 addr2 invert (64 * (start / 64)) = fetch addr1 addr2 invert start := by
  unfold fetch
  rw [Nat.mul_div_cancel_left _ (by decide)]

/-- What `tmp` holds. -/
theorem fetchInt_eq (start : ℕ) :
    (fetchInt addr1 addr2 invert start).setWidth 64 = lowWords addr1 addr2 invert (start / 64) := by
  refine BitVec.eq_of_getLsbD_eq fun j hj => ?_
  rw [lowWords_getLsbD, fetch_start]
  unfold fetchInt fetch
  cases addr2 with
  | none =>
    simp only [Option.elim_none, BitVec.getLsbD_setWidth, BitVec.getLsbD_xor]
    by_cases h : j < 32
    · simp [h, hj]
    · simp [h]
  | some a =>
    simp only [Option.elim_some, BitVec.getLsbD_setWidth, BitVec.getLsbD_xor, BitVec.getLsbD_and]
    by_cases h : j < 32
    · simp [h, hj]
    · simp [h]

theorem setWidth_eq_zero (tmp : BitVec 32) : tmp.setWidth 64 = 0 ↔ tmp = 0 := by
  constructor
  · intro h
    have := congrArg (BitVec.setWidth 32) h
    simpa using this
  · rintro rfl
    rfl

/-- The loop is the loop on the low halves. -/
theorem findNextIntLoop_eq : ∀ (n : ℕ) (tmp : BitVec 32) (start : ℕ),
    findNextIntLoop addr1 addr2 nbits invert n tmp start =
      findNextBitLoop (lowWords addr1 addr2 invert) none nbits 0 n (tmp.setWidth 64) start
  | 0, _, _ => rfl
  | n + 1, tmp, start => by
    rw [findNextIntLoop, findNextBitLoop]
    by_cases h0 : tmp = 0
    · rw [if_pos h0, if_pos ((setWidth_eq_zero tmp).mpr h0)]
      dsimp only
      rw [findNextIntLoop_eq n, fetchInt_eq, fetch_lowWords]
    · rw [if_neg h0, if_neg (mt (setWidth_eq_zero tmp).mp h0)]

/-- **The search** with the short temporary is the search on the low halves. -/
theorem findNextIntIn_eq (nbits start fuel : ℕ) : findNextIntIn addr1 addr2 nbits start invert fuel =
    findNextBitIn (lowWords addr1 addr2 invert) none nbits start 0 fuel := by
  have hlow : (((fetchInt addr1 addr2 invert start).setWidth 64 &&&
      BITMAP_FIRST_WORD_MASK 64 start).setWidth 32).setWidth 64 =
      fetch (lowWords addr1 addr2 invert) none 0 start &&& BITMAP_FIRST_WORD_MASK 64 start := by
    rw [fetchInt_eq, fetch_lowWords]
    refine BitVec.eq_of_getLsbD_eq fun j hj => ?_
    rw [BitVec.getLsbD_setWidth, BitVec.getLsbD_setWidth, BitVec.getLsbD_and, lowWords_getLsbD]
    by_cases h : j < 32
    · rw [decide_eq_true hj, decide_eq_true h, Bool.true_and, Bool.true_and]
    · rw [decide_eq_false h, Bool.false_and, Bool.and_false, Bool.and_false, Bool.false_and]
  unfold findNextIntIn findNextBitIn
  by_cases hs : start ≥ nbits
  · rw [if_pos hs, if_pos hs]
  · rw [if_neg hs, if_neg hs]
    dsimp only
    rw [findNextIntLoop_eq, hlow]

end

/-! ### The clear bits that are seen -/

variable {addr : ℕ → BitVec 64} {nbits start : ℕ}

/-- A clear bit in the low half of its word. -/
def lowClear (addr : ℕ → BitVec 64) (i : ℕ) : Bool := decide (i % 64 < 32) && ! bit addr i

theorem sought_lowWords (addr : ℕ → BitVec 64) :
    sought (lowWords addr none (BitVec.allOnes 64)) none 0 = lowClear addr := by
  funext i
  have hclear := congrFun (sought_zero (Or.inr rfl) addr) i
  unfold sought at hclear ⊢
  rw [fetch_lowWords, lowWords_getLsbD, fetch_start, Bool.and_comm, hclear]
  rfl

theorem findNextZeroBit_eq (nbits start fuel : ℕ) : findNextZeroBit addr nbits start fuel =
    findNextBitIn (lowWords addr none (BitVec.allOnes 64)) none nbits start 0 fuel :=
  findNextIntIn_eq nbits start fuel

/-- The call ends with the first clear bit, and so does the function of `Algorithem/bitmap/Basic`. -/
def FindsClear (addr : ℕ → BitVec 64) (nbits start : ℕ) : Prop :=
  ∃ N, ∀ fuel ≥ N,
    findNextZeroBit addr nbits start fuel = some (Bitmap.next (fun i => ! bit addr i) nbits start) ∧
    BitmapBasic.Model.findNextZeroBit addr nbits start fuel = findNextZeroBit addr nbits start fuel

/-- The first clear bit is in the low half of its word. -/
def LowFirst (addr : ℕ → BitVec 64) (nbits start : ℕ) : Prop :=
  ∀ i, start ≤ i → i < nbits → bit addr i = false →
    ∃ k, start ≤ k ∧ k ≤ i ∧ k % 64 < 32 ∧ bit addr k = false

/-- The index does not wrap before a clear bit is seen. -/
def InWord (addr : ℕ → BitVec 64) (nbits start : ℕ) : Prop :=
  nbits + 64 ≤ 2 ^ 64 ∨ ∃ i, start ≤ i ∧ i < 2 ^ 64 ∧ i % 64 < 32 ∧ bit addr i = false

theorem lowClear_iff (i : ℕ) : lowClear addr i = true ↔ i % 64 < 32 ∧ bit addr i = false := by
  unfold lowClear
  rw [Bool.and_eq_true, decide_eq_true_eq, Bool.not_eq_true']

theorem next_lowClear_iff (h : start ≤ nbits) : Bitmap.next (lowClear addr) nbits start =
    Bitmap.next (fun i => ! bit addr i) nbits start ↔ LowFirst addr nbits start := by
  rw [Bitmap.next_eq_next_iff (fun i hi => ?_) h]
  · unfold LowFirst
    simp only [lowClear_iff, Bool.not_eq_true']
  · rw [((lowClear_iff i).mp hi).2]
    rfl

/-- What the search on the low halves gives. -/
theorem findNextZeroBit_low (hn : nbits < 2 ^ 64) (h : InWord addr nbits start) (hs : start < nbits) {fuel : ℕ}
    (hf : 2 ^ 64 ≤ fuel) :
    findNextZeroBit addr nbits start fuel = some (Bitmap.next (lowClear addr) nbits start) := by
  rw [findNextZeroBit_eq, ← sought_lowWords]
  rcases h with h | ⟨i, hi, hlt, hlow, hbit⟩
  · exact findNextBitIn_spec (Or.inr rfl) h (by omega)
  · refine findNextBitIn_found (Or.inr rfl) hn hs hi hlt ?_ hf
    rw [sought_lowWords]
    exact (lowClear_iff i).mpr ⟨hlow, hbit⟩

/-- What the function of `Algorithem/bitmap/Basic` gives. -/
theorem basic_findNextZeroBit (hn : nbits < 2 ^ 64) (h : InWord addr nbits start) (hs : start < nbits)
    {fuel : ℕ} (hf : 2 ^ 64 ≤ fuel) : BitmapBasic.Model.findNextZeroBit addr nbits start fuel =
      some (Bitmap.next (fun i => ! bit addr i) nbits start) := by
  rcases h with h | ⟨i, hi, hlt, -, hbit⟩
  · exact findNextZeroBit_spec (Or.inr rfl) h (by omega)
  · unfold BitmapBasic.Model.findNextZeroBit
    rw [← sought_zero (Or.inr rfl)]
    refine findNextBitIn_found (Or.inr rfl) hn hs hi hlt ?_ hf
    rw [sought_zero (Or.inr rfl)]
    dsimp only
    rw [hbit]
    rfl

/-- **The search for a clear bit** is exact if and only if the first clear bit is in the low half of its
word and the index does not wrap. -/
theorem findsClear_iff (hn : nbits < 2 ^ 64) (addr : ℕ → BitVec 64) (start : ℕ) :
    FindsClear addr nbits start ↔
      nbits ≤ start ∨ LowFirst addr nbits start ∧ InWord addr nbits start := by
  by_cases hs : nbits ≤ start
  · refine iff_of_true ⟨0, fun fuel _ => ?_⟩ (Or.inl hs)
    unfold findNextZeroBit findNextIntIn BitmapBasic.Model.findNextZeroBit findNextBitIn Bitmap.next
    rw [if_pos hs, if_pos hs, if_pos hs]
    exact ⟨rfl, rfl⟩
  · rw [or_iff_right hs]
    rw [not_le] at hs
    constructor
    · rintro ⟨N, hN⟩
      obtain ⟨hrun, -⟩ := hN (N + 2 ^ 64) (Nat.le_add_right _ _)
      have hword : InWord addr nbits start := by
        by_contra hnot
        unfold InWord at hnot
        push Not at hnot
        obtain ⟨hbig, hno⟩ := hnot
        -- what is found is not from `start` on
        rw [findNextZeroBit_eq] at hrun
        obtain ⟨i, hi, hbit, hmin⟩ := findNextBitIn_sound (Or.inr rfl) hbig hs (hs.trans hn) hrun
        rw [sought_lowWords, lowClear_iff] at hbit
        have hlt : i < start := by
          by_contra hge
          exact hno i (not_lt.mp hge) hi hbit.1 hbit.2
        obtain ⟨hge, -⟩ := Bitmap.next_spec (p := fun i => ! bit addr i) hs.le
        rw [hmin, min_eq_left (by omega)] at hge
        omega
      rw [findNextZeroBit_low hn hword hs (Nat.le_add_left _ _)] at hrun
      exact ⟨(next_lowClear_iff hs.le).mp (Option.some.inj hrun), hword⟩
    · rintro ⟨hlow, hword⟩
      refine ⟨2 ^ 64, fun fuel hf => ?_⟩
      have hrun := findNextZeroBit_low hn hword hs hf
      rw [(next_lowClear_iff hs.le).mpr hlow] at hrun
      exact ⟨hrun, by rw [hrun, basic_findNextZeroBit hn hword hs hf]⟩

/-- The second bit of a word. -/
theorem findsClear_iff_second : FindsClear (fun _ => 1) 64 0 ↔
    64 ≤ 0 ∨ LowFirst (fun _ => 1) 64 0 ∧ InWord (fun _ => 1) 64 0 :=
  findsClear_iff (by decide) (fun _ => 1) 0

/-- A word with a clear bit in its high half only. -/
theorem not_findsClear_high : ¬ FindsClear (fun _ => 0xffffffff) 64 0 := by
  rintro ⟨N, hN⟩
  obtain ⟨hrun, -⟩ := hN (N + 2 ^ 64) (Nat.le_add_right _ _)
  rw [findNextZeroBit_low (by decide) (Or.inl (by decide)) (by decide) (Nat.le_add_left _ _)] at hrun
  obtain ⟨k, -, hle, hlow, hbit⟩ := (next_lowClear_iff (Nat.zero_le 64)).mp (Option.some.inj hrun) 32
    (Nat.zero_le _) (by decide) (by decide)
  unfold bit at hbit
  dsimp only at hbit
  rw [getLsbD_low, decide_eq_true hlow] at hbit
  cases hbit

end HardStack.Ida.FindBit
