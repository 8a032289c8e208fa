import HardStack.Dcache.Model
import HardStack.Lib.ZeroByte

/-! # The hash of a path component

A word has a flag in one of the two masks exactly if one of its bytes ends the component, and the
lowest flag is at the first such byte. So the loop mixes the complete words of the component, and the
last mask leaves the bytes of the component in the last word. -/

namespace HardStack.Dcache.HashName

open HardStack.Dcache.Model

variable {mem : Memory} {name : BitVec 32} {cs : List (BitVec 8)} {x y len : BitVec 32}

/-! ### The definition byte by byte -/

/-- A word of the bytes, the first of them the lowest, filled up with zeros. -/
def word (bs : List (BitVec 8)) : BitVec 32 := BitVec.ofNat 32 (Nat.ofDigits 256 (bs.map BitVec.toNat))

/-- The complete words of a component are mixed, and the rest is added. -/
def mixBytes : List (BitVec 8) → BitVec 32 → BitVec 32 → BitVec 32
  | b0 :: b1 :: b2 :: b3 :: rest, x, y =>
    mixBytes rest (HASH_MIX x y (word [b0, b1, b2, b3])).1 (HASH_MIX x y (word [b0, b1, b2, b3])).2
  | rest, x, y => foldHash (x ^^^ word rest) y

/-- **The hash** of a salt and a component. -/
def byteHash (salt : BitVec 32) (cs : List (BitVec 8)) : BitVec 32 := mixBytes cs 0#32 salt

/-- A NUL or a slash. -/
def Ends (b : BitVec 8) : Prop := b = 0#8 ∨ b = 0x2f#8

/-- The component at an address: its bytes do not end it, the byte after them does. -/
structure Component (mem : Memory) (name : BitVec 32) (cs : List (BitVec 8)) : Prop where
  bytes : ∀ i (h : i < cs.length), mem (name + BitVec.ofNat 32 i) = cs[i] ∧ ¬ Ends cs[i]
  ends : Ends (mem (name + BitVec.ofNat 32 cs.length))

/-! ### The flags of a word -/

/-- The word of four bytes. -/
def wordOf (f : ℕ → BitVec 8) : BitVec 32 := f 3 ++ f 2 ++ f 1 ++ f 0

/-- Its bytes as digits. -/
def digitsOf (f : ℕ → BitVec 8) : List ℕ := [f 0, f 1, f 2, f 3].map BitVec.toNat

theorem digitsOf_lt (f : ℕ → BitVec 8) : ∀ b ∈ digitsOf f, b < 256 := by
  intro b hb
  obtain ⟨c, -, rfl⟩ := List.mem_map.mp hb
  exact c.isLt

theorem digitsOf_getElem? {f : ℕ → BitVec 8} {i : ℕ} (h : i < 4) : (digitsOf f)[i]? = some (f i).toNat := by
  interval_cases i <;> rfl

theorem digitsOf_ne_zero {f : ℕ → BitVec 8} {i : ℕ} (h : i < 4) (hne : f i ≠ 0#8) :
    (digitsOf f)[i]? ≠ some 0 := by
  rw [digitsOf_getElem? h]
  intro heq
  exact hne (BitVec.eq_of_toNat_eq (Option.some.inj heq))

theorem toNat_wordOf (f : ℕ → BitVec 8) : (wordOf f).toNat = Nat.ofDigits 256 (digitsOf f) := by
  have h0 := (f 0).isLt
  have h1 := (f 1).isLt
  have h2 := (f 2).isLt
  unfold wordOf digitsOf
  rw [BitVec.toNat_append, BitVec.toNat_append, BitVec.toNat_append,
    ← Nat.shiftLeft_add_eq_or_of_lt h2, ← Nat.shiftLeft_add_eq_or_of_lt h1,
    ← Nat.shiftLeft_add_eq_or_of_lt h0]
  simp only [List.map_cons, List.map_nil, Nat.ofDigits_cons, Nat.ofDigits_nil, Nat.shiftLeft_eq,
    Nat.cast_id]
  omega

theorem wordOf_xor (f : ℕ → BitVec 8) :
    wordOf f ^^^ REPEAT_BYTE 0x2f#32 = wordOf fun i => f i ^^^ 0x2f#8 := by
  have hrep : REPEAT_BYTE 0x2f#32 = wordOf fun _ => 0x2f#8 := by decide +kernel
  rw [hrep]
  unfold wordOf
  rw [BitVec.xor_append, BitVec.xor_append, BitVec.xor_append]

theorem getLsbD_high_bits {i : ℕ} (h : i < 32) : high_bits.getLsbD i = decide (i % 8 = 7) := by
  have hhigh : high_bits = 0x80808080#32 := by decide +kernel
  rw [hhigh]
  interval_cases i <;> rfl

theorem toNat_sub_one_bits (a : BitVec 32) : (a - one_bits).toNat = Lib.ZeroByte.lessOnes 4 a.toNat := by
  have hone : one_bits.toNat = Lib.ZeroByte.ones 4 := by decide +kernel
  have hle : Lib.ZeroByte.ones 4 ≤ 2 ^ 32 := by decide +kernel
  have hpow : (256 : ℕ) ^ 4 = 2 ^ 32 := by norm_num
  unfold Lib.ZeroByte.lessOnes
  rw [BitVec.toNat_sub, hone, hpow]
  generalize Lib.ZeroByte.ones 4 = c at hle
  rw [show 2 ^ 32 - c + a.toNat = a.toNat + 2 ^ 32 - c by omega]

/-- A flag is at the top of a byte. -/
theorem getLsbD_hasZero {a : BitVec 32} {j : ℕ} (h : (hasZero a).getLsbD j = true) :
    ∃ i < 4, j = 8 * i + 7 := by
  have hj : j < 32 := BitVec.lt_of_getLsbD h
  unfold hasZero at h
  rw [BitVec.getLsbD_and, getLsbD_high_bits hj, Bool.and_eq_true, decide_eq_true_eq] at h
  exact ⟨j / 8, by omega, by omega⟩

theorem getLsbD_hasZero_eq {a : BitVec 32} {i : ℕ} (h : i < 4) : (hasZero a).getLsbD (8 * i + 7) =
    ((Lib.ZeroByte.lessOnes 4 a.toNat).testBit (8 * i + 7) && !a.toNat.testBit (8 * i + 7)) := by
  unfold hasZero
  have hj : 8 * i + 7 < 32 := by omega
  rw [BitVec.getLsbD_and, BitVec.getLsbD_and, getLsbD_high_bits hj, BitVec.getLsbD_not,
    decide_eq_true hj, decide_eq_true (show (8 * i + 7) % 8 = 7 by omega), Bool.and_true, Bool.true_and,
    ← toNat_sub_one_bits]
  rfl

theorem hasZero_of_ne_zero {f : ℕ → BitVec 8} {i : ℕ} (hi : i < 4) (hne : ∀ j ≤ i, f j ≠ 0#8) :
    (hasZero (wordOf f)).getLsbD (8 * i + 7) = false := by
  rw [getLsbD_hasZero_eq hi, toNat_wordOf]
  by_contra h
  rw [Bool.not_eq_false, Bool.and_eq_true] at h
  have hbit := Lib.ZeroByte.testBit_of_ne_zero (digitsOf_lt f) hi
    (fun j hj => digitsOf_ne_zero (by omega) (hne j hj)) h.1
  rw [hbit] at h
  exact absurd h.2 (by decide)

theorem hasZero_of_first_zero {f : ℕ → BitVec 8} {k : ℕ} (hk : k < 4) (hne : ∀ j < k, f j ≠ 0#8)
    (hzero : f k = 0#8) : (hasZero (wordOf f)).getLsbD (8 * k + 7) = true := by
  rw [getLsbD_hasZero_eq hk, toNat_wordOf]
  obtain ⟨hset, hclear⟩ := Lib.ZeroByte.testBit_of_first_zero (digitsOf_lt f)
    (fun j hj => digitsOf_ne_zero (by omega) (hne j hj))
    (show (digitsOf f)[k]? = some 0 by rw [digitsOf_getElem? hk, hzero]; rfl)
  rw [show Lib.ZeroByte.lessOnes 4 = Lib.ZeroByte.lessOnes (digitsOf f).length from rfl, hset, hclear]
  rfl

/-! ### Both masks -/

/-- The flags of a word for a NUL and for a slash. -/
def flags (a : BitVec 32) : BitVec 32 := hasZero a ||| hasZero (a ^^^ REPEAT_BYTE 0x2f#32)

theorem ends_iff {b : BitVec 8} : Ends b ↔ b = 0#8 ∨ b ^^^ 0x2f#8 = 0#8 := by
  unfold Ends
  rw [BitVec.xor_eq_zero_iff]

/-- No flag comes before the first byte that ends the component. -/
theorem flags_low {f : ℕ → BitVec 8} {k : ℕ} (hne : ∀ j < k, ¬ Ends (f j)) {j : ℕ}
    (hj : j < 8 * k + 7) : (flags (wordOf f)).getLsbD j = false := by
  have hnot : ∀ i < k, f i ≠ 0#8 ∧ f i ^^^ 0x2f#8 ≠ 0#8 := fun i hi =>
    not_or.mp (mt ends_iff.mpr (hne i hi))
  unfold flags
  rw [BitVec.getLsbD_or, wordOf_xor, Bool.or_eq_false_iff]
  constructor
  · by_contra h
    rw [Bool.not_eq_false] at h
    obtain ⟨i, hi, rfl⟩ := getLsbD_hasZero h
    rw [hasZero_of_ne_zero hi fun m hm => (hnot m (by omega)).1] at h
    cases h
  · by_contra h
    rw [Bool.not_eq_false] at h
    obtain ⟨i, hi, rfl⟩ := getLsbD_hasZero h
    rw [hasZero_of_ne_zero hi fun m hm => (hnot m (by omega)).2] at h
    cases h

/-- **The first flag** is at the first byte that ends the component. -/
theorem flags_first {f : ℕ → BitVec 8} {k : ℕ} (hk : k < 4) (hne : ∀ j < k, ¬ Ends (f j))
    (hends : Ends (f k)) : (flags (wordOf f)).getLsbD (8 * k + 7) = true := by
  have hnot : ∀ i < k, f i ≠ 0#8 ∧ f i ^^^ 0x2f#8 ≠ 0#8 := fun i hi =>
    not_or.mp (mt ends_iff.mpr (hne i hi))
  unfold flags
  rw [BitVec.getLsbD_or, wordOf_xor, Bool.or_eq_true]
  rcases ends_iff.mp hends with hzero | hzero
  · exact Or.inl (hasZero_of_first_zero hk (fun j hj => (hnot j hj).1) hzero)
  · exact Or.inr (hasZero_of_first_zero hk (fun j hj => (hnot j hj).2) hzero)

theorem flags_eq_zero {f : ℕ → BitVec 8} (hne : ∀ j < 4, ¬ Ends (f j)) : flags (wordOf f) = 0#32 := by
  refine BitVec.eq_of_getLsbD_eq fun j hj => ?_
  rw [flags_low hne (by omega), BitVec.getLsbD_zero]

/-- **The mask** covers the bytes before the one that ends the component. -/
theorem createZeroMask_flags {f : ℕ → BitVec 8} {k : ℕ} (hk : k < 4) (hne : ∀ j < k, ¬ Ends (f j))
    (hends : Ends (f k)) : (createZeroMask (flags (wordOf f))).toNat = 2 ^ (8 * k) - 1 := by
  unfold createZeroMask
  rw [BitVec.toNat_ushiftRight, Lib.ZeroByte.sub_one_and_not (flags_first hk hne hends)
    fun j hj => flags_low hne hj]
  interval_cases k <;> rfl

theorem findZero_eq {mask : BitVec 32} {k : ℕ} (hk : k < 4) (h : mask.toNat = 2 ^ (8 * k) - 1) :
    findZero mask = BitVec.ofNat 32 k := by
  unfold findZero fls
  rw [h]
  have hsize : Nat.size (2 ^ (8 * k) - 1) = 8 * k := by
    refine le_antisymm (Nat.size_le.mpr (Nat.sub_lt (by positivity) Nat.one_pos)) ?_
    rcases Nat.eq_zero_or_pos k with rfl | hpos
    · exact Nat.zero_le _
    · refine Nat.le_of_pred_lt (Nat.lt_size.mpr ?_)
      interval_cases k <;> decide
  rw [hsize, Nat.shiftRight_eq_div_pow]
  congr 1
  omega

/-- The bytes that the mask covers. -/
theorem and_mask {f : ℕ → BitVec 8} {mask : BitVec 32} {k : ℕ} (hk : k < 4)
    (h : mask.toNat = 2 ^ (8 * k) - 1) : wordOf f &&& mask = word ((List.range k).map f) := by
  refine BitVec.eq_of_toNat_eq ?_
  have hlt : Nat.ofDigits 256 (((List.range k).map f).map BitVec.toNat) = (wordOf f).toNat % 2 ^ (8 * k) := by
    rw [toNat_wordOf]
    have h0 := (f 0).isLt
    have h1 := (f 1).isLt
    have h2 := (f 2).isLt
    unfold digitsOf
    interval_cases k
    all_goals
      simp only [List.range_succ, List.range_zero, List.nil_append, List.map_cons,
        List.map_nil, List.cons_append, Nat.ofDigits_cons, Nat.ofDigits_nil]
      omega
  have hle : (wordOf f).toNat % 2 ^ (8 * k) ≤ (wordOf f).toNat := Nat.mod_le _ _
  unfold word
  rw [BitVec.toNat_and, h, Nat.and_two_pow_sub_one_eq_mod, BitVec.toNat_ofNat, hlt,
    Nat.mod_eq_of_lt (hle.trans_lt (BitVec.isLt _))]

/-! ### The loop -/

/-- The bytes from an address on. -/
def bytesAt (mem : Memory) (addr : BitVec 32) (i : ℕ) : BitVec 8 := mem (addr + BitVec.ofNat 32 i)

theorem load_eq (mem : Memory) (addr : BitVec 32) :
    loadUnalignedZeropad mem addr = wordOf (bytesAt mem addr) := by
  unfold loadUnalignedZeropad wordOf bytesAt
  rw [show addr + BitVec.ofNat 32 0 = addr from BitVec.add_zero addr]

theorem hashLoop_succ (fuel : ℕ) : hashLoop mem name (fuel + 1) x y len =
    if flags (wordOf (bytesAt mem (name + len))) = 0#32 then
      hashLoop mem name fuel (HASH_MIX x y (wordOf (bytesAt mem (name + len)))).1
        (HASH_MIX x y (wordOf (bytesAt mem (name + len)))).2 (len + 4#32)
    else some (hashlenCreate (foldHash (x ^^^ (wordOf (bytesAt mem (name + len)) &&&
        createZeroMask (flags (wordOf (bytesAt mem (name + len)))))) y)
      (len + findZero (createZeroMask (flags (wordOf (bytesAt mem (name + len))))))) := by
  rw [hashLoop, load_eq]
  rfl

/-- The component goes on after its first word. -/
theorem Component.tail {b0 b1 b2 b3 : BitVec 8} {rest : List (BitVec 8)}
    (h : Component mem name (b0 :: b1 :: b2 :: b3 :: rest)) : Component mem (name + 4#32) rest := by
  have haddr : ∀ i, name + 4#32 + BitVec.ofNat 32 i = name + BitVec.ofNat 32 (i + 4) := by
    intro i
    rw [BitVec.add_assoc, BitVec.ofNat_add, BitVec.add_comm (BitVec.ofNat 32 i)]
  refine ⟨fun i hi => ?_, ?_⟩
  · rw [haddr]
    exact h.bytes (i + 4) (Nat.add_lt_add_right hi 4)
  · rw [haddr]
    exact h.ends

theorem wordOf_eq_word (f : ℕ → BitVec 8) : wordOf f = word [f 0, f 1, f 2, f 3] := by
  refine BitVec.eq_of_toNat_eq ?_
  show _ = Nat.ofDigits 256 (digitsOf f) % 2 ^ 32
  rw [← toNat_wordOf, Nat.mod_eq_of_lt (BitVec.isLt _)]

theorem mixBytes_short (h : cs.length < 4) : mixBytes cs x y = foldHash (x ^^^ word cs) y := by
  match cs, h with
  | [], _ => rfl
  | [_], _ => rfl
  | [_, _], _ => rfl
  | [_, _, _], _ => rfl

/-- **The loop** mixes what is left of the component. -/
theorem hashLoop_spec : ∀ {fuel : ℕ} {cs : List (BitVec 8)} {x y len : BitVec 32},
    Component mem (name + len) cs → cs.length / 4 < fuel → hashLoop mem name fuel x y len =
      some (hashlenCreate (mixBytes cs x y) (len + BitVec.ofNat 32 cs.length))
  | fuel + 1, cs, x, y, len, h, hfuel => by
    have hbyte : ∀ i (hi : i < cs.length), bytesAt mem (name + len) i = cs[i] ∧
        ¬ Ends (bytesAt mem (name + len) i) := by
      intro i hi
      obtain ⟨heq, hne⟩ := h.bytes i hi
      unfold bytesAt
      exact ⟨heq, by rwa [heq]⟩
    rw [hashLoop_succ]
    by_cases h4 : 4 ≤ cs.length
    · -- a complete word
      obtain ⟨b0, b1, b2, b3, rest, rfl⟩ : ∃ b0 b1 b2 b3 rest, cs = b0 :: b1 :: b2 :: b3 :: rest := by
        match cs, h4 with
        | b0 :: b1 :: b2 :: b3 :: rest, _ => exact ⟨b0, b1, b2, b3, rest, rfl⟩
      have hword : wordOf (bytesAt mem (name + len)) = word [b0, b1, b2, b3] := by
        rw [wordOf_eq_word, (hbyte 0 (by omega)).1, (hbyte 1 (by omega)).1, (hbyte 2 (by omega)).1,
          (hbyte 3 (by omega)).1]
        rfl
      have htail := h.tail
      rw [BitVec.add_assoc] at htail
      rw [if_pos (flags_eq_zero fun j hj => (hbyte j (by omega)).2), hword,
        hashLoop_spec htail (by simp only [List.length_cons] at hfuel; omega), mixBytes]
      simp only [List.length_cons]
      rw [BitVec.add_assoc, BitVec.add_comm 4#32, ← BitVec.ofNat_add]
    · have hk : cs.length < 4 := by omega
      have hne : ∀ j < cs.length, ¬ Ends (bytesAt mem (name + len) j) := fun j hj => (hbyte j hj).2
      have hmask := createZeroMask_flags hk hne h.ends
      have hcs : (List.range cs.length).map (bytesAt mem (name + len)) = cs := by
        refine List.ext_getElem (by rw [List.length_map, List.length_range]) fun i h1 h2 => ?_
        rw [List.getElem_map, List.getElem_range, (hbyte i h2).1]
      rw [if_neg, and_mask hk hmask, hcs, findZero_eq hk hmask, mixBytes_short hk]
      intro hzero
      have hflag := flags_first hk hne h.ends
      rw [hzero, BitVec.getLsbD_zero] at hflag
      cases hflag

/-! ### The result -/

/-- A byte somewhere that ends a component leaves one. -/
theorem exists_component (hend : ∃ i : ℕ, Ends (mem (name + BitVec.ofNat 32 i))) :
    ∃ cs, Component mem name cs := by
  classical
  refine ⟨(List.range (Nat.find hend)).map (bytesAt mem name), fun i hi => ?_, ?_⟩
  · rw [List.length_map, List.length_range] at hi
    rw [List.getElem_map, List.getElem_range]
    exact ⟨rfl, Nat.find_min hend hi⟩
  · rw [List.length_map, List.length_range]
    exact Nat.find_spec hend

/-- A component does not go around the address space. -/
theorem Component.length_lt (h : Component mem name cs) : cs.length < 2 ^ 32 := by
  by_contra hge
  obtain ⟨heq, hne⟩ := h.bytes (cs.length - 2 ^ 32) (by omega)
  have hwrap : BitVec.ofNat 32 (cs.length - 2 ^ 32) = BitVec.ofNat 32 cs.length := by
    refine BitVec.eq_of_toNat_eq ?_
    rw [BitVec.toNat_ofNat, BitVec.toNat_ofNat]
    omega
  rw [hwrap] at heq
  exact hne (heq ▸ h.ends)

theorem hashName_spec {fuel : ℕ} (salt : BitVec 32) (h : Component mem name cs) (hfuel : cs.length / 4 < fuel) :
    hashName mem fuel salt name = some (hashlenCreate (byteHash salt cs) (BitVec.ofNat 32 cs.length)) := by
  have h0 : Component mem (name + 0#32) cs := by
    rw [BitVec.add_zero]
    exact h
  unfold hashName byteHash
  rw [hashLoop_spec h0 hfuel, BitVec.zero_add]

theorem toNat_hashlenCreate (hash len : BitVec 32) :
    (hashlenCreate hash len).toNat = len.toNat * 2 ^ 32 + hash.toNat := by
  have hhash := hash.isLt
  have hlen := len.isLt
  unfold hashlenCreate
  rw [BitVec.toNat_or, BitVec.toNat_shiftLeft, BitVec.toNat_setWidth, BitVec.toNat_setWidth,
    Nat.mod_eq_of_lt (show len.toNat < 2 ^ 64 by omega), Nat.mod_eq_of_lt (show hash.toNat < 2 ^ 64 by omega),
    Nat.shiftLeft_eq, Nat.mod_eq_of_lt (by omega), ← Nat.shiftLeft_eq,
    ← Nat.shiftLeft_add_eq_or_of_lt hhash]

theorem length_hashlenCreate (hash len : BitVec 32) :
    (hashlenCreate hash len >>> 32).toNat = len.toNat := by
  have hhash := hash.isLt
  rw [BitVec.toNat_ushiftRight, toNat_hashlenCreate, Nat.shiftRight_eq_div_pow]
  omega

theorem hash_hashlenCreate (hash len : BitVec 32) : (hashlenCreate hash len).setWidth 32 = hash := by
  have hhash := hash.isLt
  refine BitVec.eq_of_toNat_eq ?_
  rw [BitVec.toNat_setWidth, toNat_hashlenCreate]
  omega

/-- **Name hashing looks only at the component**: with a byte that ends it somewhere, the loop ends, the
length is that of the component and the hash that of its bytes, and so is every other name's with the
same component. -/
theorem hashName_component (hend : ∃ i : ℕ, Ends (mem (name + BitVec.ofNat 32 i))) :
    ∃ cs, Component mem name cs ∧ ∀ salt, ∃ r : BitVec 64,
      (r >>> 32).toNat = cs.length ∧ r.setWidth 32 = byteHash salt cs ∧
      ∃ enough, ∀ fuel ≥ enough, hashName mem fuel salt name = some r ∧
        ∀ mem' name', Component mem' name' cs → hashName mem' fuel salt name' = some r := by
  obtain ⟨cs, h⟩ := exists_component hend
  refine ⟨cs, h, fun salt => ⟨_, ?_, hash_hashlenCreate (byteHash salt cs) (BitVec.ofNat 32 cs.length),
    cs.length / 4 + 1, fun fuel hfuel => ⟨hashName_spec salt h (by omega), fun mem' name' h' =>
      hashName_spec salt h' (by omega)⟩⟩⟩
  rw [length_hashlenCreate, BitVec.toNat_ofNat, Nat.mod_eq_of_lt h.length_lt]

/-- Five letters and a slash. -/
def letters : Memory := fun addr => if addr = 0x1005#32 then 0x2f#8 else 0x61#8

theorem hashName_component_letters : ∃ cs, Component letters 0x1000#32 cs ∧ ∀ salt, ∃ r : BitVec 64,
    (r >>> 32).toNat = cs.length ∧ r.setWidth 32 = byteHash salt cs ∧
    ∃ enough, ∀ fuel ≥ enough, hashName letters fuel salt 0x1000#32 = some r ∧
      ∀ mem' name', Component mem' name' cs → hashName mem' fuel salt name' = some r :=
  hashName_component ⟨5, Or.inr (by decide)⟩

end HardStack.Dcache.HashName
