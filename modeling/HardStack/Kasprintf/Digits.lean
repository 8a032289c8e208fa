import HardStack.Kasprintf.Model
import HardStack.Lib.Numeral

/-! # The digits of `number`

What a conversion leaves in `tmp` is told by `bytes`: the text in front of it stays, and the numeral of
the number comes after it. `put_dec` divides by `100` with a product and a shift, which is exact on the
numbers its stages can hold; each quotient is below the bound of the next stage, and each remainder is
below `100`, as `decpair` needs it. -/

namespace HardStack.Kasprintf.Digits

open HardStack.Kasprintf.Model HardStack.Lib.Numeral

/-- The character of a digit. -/
def digitChar (small : Bool) (d : ℕ) : BitVec 8 :=
  if d < 10 then BitVec.ofNat 8 (0x30 + d) else BitVec.ofNat 8 ((if small then 0x61 else 0x41) + (d - 10))

/-- The text of a list of digits. -/
def text (small : Bool) (L : List ℕ) : List (BitVec 8) := L.map (digitChar small)

@[simp] theorem length_text (small : Bool) (L : List ℕ) : (text small L).length = L.length := by
  simp [text]

theorem text_append (small : Bool) (L M : List ℕ) : text small (L ++ M) = text small L ++ text small M := by
  simp [text]

/-! ### The bytes of `tmp` -/

/-- The first bytes. -/
def bytes (tmp : Tmp) (n : ℕ) : List (BitVec 8) := (List.range n).map tmp

@[simp] theorem length_bytes (tmp : Tmp) (n : ℕ) : (bytes tmp n).length = n := by simp [bytes]

theorem bytes_succ (tmp : Tmp) (n : ℕ) : bytes tmp (n + 1) = bytes tmp n ++ [tmp n] := by
  simp [bytes, List.range_succ]

theorem bytes_update (tmp : Tmp) {n i : ℕ} (c : BitVec 8) (hi : n ≤ i) :
    bytes (Function.update tmp i c) n = bytes tmp n := by
  refine List.map_congr_left fun k hk => Function.update_of_ne ?_ _ _
  have := List.mem_range.mp hk
  omega

/-- Writing at the end of the text. -/
theorem bytes_write (tmp : Tmp) (i : ℕ) (c : BitVec 8) :
    bytes (Function.update tmp i c) (i + 1) = bytes tmp i ++ [c] := by
  rw [bytes_succ, bytes_update tmp c le_rfl, Function.update_self]

/-- The result is the text `L` after what was there, and the end of it. -/
def Puts (tmp : Tmp) (buf : ℕ) (L : List (BitVec 8)) (res : Option (Tmp × ℕ)) : Prop :=
  ∃ tmp', res = some (tmp', buf + L.length) ∧ bytes tmp' (buf + L.length) = bytes tmp buf ++ L

/-- One text after the other. -/
theorem Puts.trans {tmp tmp' : Tmp} {buf : ℕ} {L M : List (BitVec 8)} {res : Option (Tmp × ℕ)}
    (hL : bytes tmp' (buf + L.length) = bytes tmp buf ++ L) (hM : Puts tmp' (buf + L.length) M res) :
    Puts tmp buf (L ++ M) res := by
  obtain ⟨tmp'', hres, hbytes⟩ := hM
  refine ⟨tmp'', by rw [hres, List.length_append, add_assoc], ?_⟩
  rw [List.length_append, ← add_assoc, hbytes, hL, List.append_assoc]

/-! ### Pairs of digits -/

theorem decpair_eq {x : BitVec 32} (hx : x.toNat < 100) :
    ∃ w, decpair x = some w ∧ w.setWidth 8 = digitChar false (x.toNat % 10) ∧
      (w >>> 8).setWidth 8 = digitChar false (x.toNat / 10) := by
  have key : ∀ k < 100, (decpair (BitVec.ofNat 32 k)).map
      (fun w : BitVec 16 => (w.setWidth 8, (w >>> 8).setWidth 8)) =
        some (digitChar false (k % 10), digitChar false (k / 10)) := by
    decide +kernel
  have h := key x.toNat hx
  rw [BitVec.ofNat_toNat, BitVec.setWidth_eq] at h
  obtain ⟨w, hw, heq⟩ := Option.map_eq_some_iff.mp h
  exact ⟨w, hw, congrArg Prod.fst heq, congrArg Prod.snd heq⟩

/-- A pair of digits: the first alone, and both. -/
theorem putPair_eq (tmp : Tmp) {buf : ℕ} {x : BitVec 32} (hx : x.toNat < 100) (hbuf : buf + 2 ≤ TMP_SIZE) :
    ∃ tmp', putPair tmp buf x = some tmp' ∧
      bytes tmp' (buf + 1) = bytes tmp buf ++ [digitChar false (x.toNat % 10)] ∧
      bytes tmp' (buf + 2) = bytes tmp buf ++ text false (lowDigits 10 2 x.toNat) := by
  obtain ⟨w, hw, hlow, hhigh⟩ := decpair_eq hx
  have h0 : buf < TMP_SIZE := by omega
  have h1 : buf + 1 < TMP_SIZE := by omega
  refine ⟨Function.update (Function.update tmp buf (w.setWidth 8)) (buf + 1) ((w >>> 8).setWidth 8),
    ?_, ?_, ?_⟩
  · simp only [putPair, hw, Tmp.write16, Tmp.write, Option.bind_eq_bind, Option.bind_some, if_pos h0,
      if_pos h1]
  · rw [bytes_update _ _ le_rfl, bytes_write, hlow]
  · have htens : x.toNat / 10 % 10 = x.toNat / 10 := Nat.mod_eq_of_lt (by omega)
    rw [bytes_write, bytes_write, hlow, hhigh, List.append_assoc]
    simp [text, lowDigits, htens]

/-- A pair in front of the rest. -/
theorem putPair_trans {tmp : Tmp} {buf : ℕ} {x : BitVec 32} (hx : x.toNat < 100) (hbuf : buf + 2 ≤ TMP_SIZE)
    {M : List (BitVec 8)} {f : Tmp → Option (Tmp × ℕ)} (hf : ∀ tmp', Puts tmp' (buf + 2) M (f tmp')) :
    Puts tmp buf (text false (lowDigits 10 2 x.toNat) ++ M) (putPair tmp buf x >>= f) := by
  obtain ⟨tmp', hput, -, hbytes⟩ := putPair_eq tmp hx hbuf
  rw [hput]
  exact Puts.trans (by simpa using hbytes) (by simpa using hf tmp')

/-! ### The quotients -/

/-- The product with the rounded reciprocal is exact this far. -/
theorem mul_shift {n : ℕ} (hn : n < 2 ^ 30) : n * 0x28f5c29 / 2 ^ 32 = n / 100 := by
  refine Nat.div_eq_of_lt_le ?_ ?_
  · omega
  · omega

theorem mul_shiftShort {n : ℕ} (hn : n < 10000) : n * 0x147b / 2 ^ 19 = n / 100 := by
  refine Nat.div_eq_of_lt_le ?_ ?_
  · omega
  · omega

theorem product_toNat {r : BitVec 32} (hr : r.toNat < 2 ^ 30) :
    (r.setWidth 64 * 0x28f5c29).toNat = r.toNat * 0x28f5c29 := by
  have hmul : r.toNat % 2 ^ 64 * 0x28f5c29 % 2 ^ 64 = r.toNat * 0x28f5c29 := by omega
  rw [BitVec.toNat_mul, BitVec.toNat_setWidth]
  exact hmul

theorem div100_toNat {r : BitVec 32} (hr : r.toNat < 2 ^ 30) : (div100 r).toNat = r.toNat / 100 :=
  calc (div100 r).toNat = (r.setWidth 64 * 0x28f5c29).toNat / 2 ^ 32 % 2 ^ 32 := by
        rw [div100, BitVec.toNat_setWidth, BitVec.toNat_ushiftRight, Nat.shiftRight_eq_div_pow]
    _ = r.toNat / 100 % 2 ^ 32 := by rw [product_toNat hr, mul_shift hr]
    _ = r.toNat / 100 := Nat.mod_eq_of_lt (by omega)

theorem div100Short_toNat {r : BitVec 32} (hr : r.toNat < 10000) :
    (div100Short r).toNat = r.toNat / 100 := by
  have hlit : (0x147b : BitVec 32).toNat = 0x147b := rfl
  have hmul : r.toNat * 0x147b % 2 ^ 32 = r.toNat * 0x147b := by omega
  simp only [div100Short, BitVec.toNat_ushiftRight, BitVec.toNat_mul, hlit, Nat.shiftRight_eq_div_pow, hmul,
    mul_shiftShort hr]

/-- What is left of `r` after its quotient. -/
theorem rem100_toNat {r q : BitVec 32} (hq : q.toNat = r.toNat / 100) :
    (r - 100 * q).toNat = r.toNat % 100 := by
  have hlit : (100 : BitVec 32).toNat = 100 := rfl
  simp only [BitVec.toNat_sub, BitVec.toNat_mul, hlit]
  omega

theorem lowDigits_rem100 {r q : BitVec 32} (hq : q.toNat = r.toNat / 100) :
    lowDigits 10 2 (r - 100 * q).toNat = lowDigits 10 2 r.toNat := by
  rw [rem100_toNat hq]
  exact lowDigits_mod 2 r.toNat

theorem rem100_lt {r q : BitVec 32} (hq : q.toNat = r.toNat / 100) : (r - 100 * q).toNat < 100 := by
  rw [rem100_toNat hq]
  omega

/-! ### `put_dec` -/

/-- The decimal text of a number, least significant digit first. -/
def decimal (n : ℕ) : List (BitVec 8) := text false (numeral 10 n)

theorem decimal_of_le {n : ℕ} (hn : 100 ≤ n) :
    decimal n = text false (lowDigits 10 2 n) ++ decimal (n / 100) := by
  rw [decimal, numeral_eq_append (by decide) 2 hn, text_append]
  rfl

theorem putDecOut_puts (tmp : Tmp) {buf : ℕ} {r : BitVec 32} (hr : r.toNat < 100)
    (hbuf : buf + 2 ≤ TMP_SIZE) : Puts tmp buf (decimal r.toNat) (putDecOut tmp buf r) := by
  obtain ⟨tmp', hput, hone, htwo⟩ := putPair_eq tmp hr hbuf
  rcases Nat.lt_or_ge r.toNat 10 with h | h
  · have hnum : decimal r.toNat = [digitChar false (r.toNat % 10)] := by
      rw [decimal, numeral_of_lt h, Nat.mod_eq_of_lt h]
      rfl
    exact ⟨tmp', by simp [putDecOut, hput, h, hnum], by simpa [hnum] using hone⟩
  · have hnum : decimal r.toNat = text false (lowDigits 10 2 r.toNat) := by
      have hlt : r.toNat / 10 < 10 := by omega
      rw [decimal, numeral_of_le (by decide) h, numeral_of_lt hlt]
      simp [lowDigits, Nat.mod_eq_of_lt hlt]
    exact ⟨tmp', by simp [putDecOut, hput, Nat.not_lt.mpr h, hnum], by simpa [hnum] using htwo⟩

/-- The last digits, without leading zeros. -/
theorem putDecTrunc8_puts (tmp : Tmp) {buf : ℕ} {r : BitVec 32} (hr : r.toNat < 10 ^ 8)
    (hbuf : buf + 8 ≤ TMP_SIZE) : Puts tmp buf (decimal r.toNat) (putDecTrunc8 tmp buf r) := by
  unfold putDecTrunc8
  split_ifs with h1
  · exact putDecOut_puts tmp h1 (by omega)
  have hq := div100_toNat (r := r) (by omega)
  have hr2 := div100_toNat (r := div100 r) (by omega)
  have hq2 := div100Short_toNat (r := div100 (div100 r)) (by omega)
  rw [decimal_of_le (by omega), ← lowDigits_rem100 hq, ← hq]
  refine putPair_trans (rem100_lt hq) (by omega) fun tmp => ?_
  split_ifs with h2
  · exact putDecOut_puts tmp h2 (by omega)
  rw [decimal_of_le (by omega), ← lowDigits_rem100 hr2, ← hr2]
  refine putPair_trans (rem100_lt hr2) (by omega) fun tmp => ?_
  split_ifs with h3
  · exact putDecOut_puts tmp h3 (by omega)
  rw [decimal_of_le (by omega), ← lowDigits_rem100 hq2, ← hq2]
  exact putPair_trans (rem100_lt hq2) (by omega) fun tmp => putDecOut_puts tmp (by omega) (by omega)

/-- Eight digits, with leading zeros. -/
theorem putDecFull8_puts (tmp : Tmp) {buf : ℕ} {r : BitVec 32} (hr : r.toNat < 10 ^ 8)
    (hbuf : buf + 8 ≤ TMP_SIZE) :
    Puts tmp buf (text false (lowDigits 10 8 r.toNat)) (putDecFull8 tmp buf r) := by
  have hq := div100_toNat (r := r) (by omega)
  have hr2 := div100_toNat (r := div100 r) (by omega)
  have hq2 := div100Short_toNat (r := div100 (div100 r)) (by omega)
  have hsplit : text false (lowDigits 10 8 r.toNat) = text false (lowDigits 10 2 (r - 100 * div100 r).toNat) ++
      (text false (lowDigits 10 2 (div100 r - 100 * div100 (div100 r)).toNat) ++
        (text false (lowDigits 10 2 (div100 (div100 r) - 100 * div100Short (div100 (div100 r))).toNat) ++
          text false (lowDigits 10 2 (div100Short (div100 (div100 r))).toNat))) := by
    rw [lowDigits_rem100 hq, lowDigits_rem100 hr2, lowDigits_rem100 hq2, hq2, hr2, hq, ← text_append,
      ← text_append, ← text_append]
    exact congrArg (text false) ((lowDigits_add 2 6 _).trans (congrArg _
      ((lowDigits_add 2 4 _).trans (congrArg _ (lowDigits_add 2 2 _)))))
  rw [hsplit]
  refine putPair_trans (rem100_lt hq) (by omega) fun tmp => ?_
  refine putPair_trans (rem100_lt hr2) (by omega) fun tmp => ?_
  refine putPair_trans (rem100_lt hq2) (by omega) fun tmp => ?_
  obtain ⟨tmp', hput, -, hbytes⟩ := putPair_eq tmp (x := div100Short (div100 (div100 r)))
    (by omega) (show buf + 2 + 2 + 2 + 2 ≤ TMP_SIZE by omega)
  exact ⟨tmp', by simp [hput], by simpa using hbytes⟩

theorem doDiv_toNat (n : BitVec 64) : (doDiv n (100 * 1000 * 1000)).1.toNat = n.toNat / 10 ^ 8 ∧
    (doDiv n (100 * 1000 * 1000)).2.toNat = n.toNat % 10 ^ 8 := by
  have hlit : ((100 * 1000 * 1000 : BitVec 32).setWidth 64).toNat = 10 ^ 8 := by decide
  refine ⟨by rw [doDiv, BitVec.toNat_udiv, hlit], ?_⟩
  rw [doDiv, BitVec.toNat_setWidth, BitVec.toNat_umod, hlit]
  omega

/-- One step in front of the rest: nothing is emitted of a small number. -/
theorem putDecStep_trans {tmp : Tmp} {buf : ℕ} {n : BitVec 64} (hbuf : buf + 8 ≤ TMP_SIZE)
    {f : Tmp × ℕ × BitVec 64 → Option (Tmp × ℕ)}
    (hsmall : n.toNat < 10 ^ 8 → Puts tmp buf (decimal n.toNat) (f (tmp, buf, n)))
    (hlarge : ∀ tmp' q, 10 ^ 8 ≤ n.toNat → q.toNat = n.toNat / 10 ^ 8 →
      Puts tmp' (buf + 8) (decimal q.toNat) (f (tmp', buf + 8, q))) :
    Puts tmp buf (decimal n.toNat) (putDecStep tmp buf n >>= f) := by
  unfold putDecStep
  split_ifs with h
  · obtain ⟨hq, hr⟩ := doDiv_toNat n
    obtain ⟨tmp', hfull, hbytes⟩ := putDecFull8_puts tmp (r := (doDiv n (100 * 1000 * 1000)).2)
      (by rw [hr]; omega) hbuf
    have hnum : decimal n.toNat = text false (lowDigits 10 8 (n.toNat % 10 ^ 8)) ++
        decimal (n.toNat / 10 ^ 8) := by
      rw [lowDigits_mod, decimal, numeral_eq_append (by decide) 8 h, text_append]
      rfl
    rw [hr] at hfull hbytes
    rw [hnum, ← hq]
    refine Puts.trans hbytes ?_
    simp only [hfull, Option.bind_eq_bind, Option.bind_some, length_text, length_lowDigits]
    exact hlarge tmp' _ h hq
  · exact hsmall (Nat.not_le.mp h)

theorem putDec_puts (tmp : Tmp) (n : BitVec 64) : Puts tmp 0 (decimal n.toNat) (putDec tmp 0 n) := by
  have trunc : ∀ (tmp : Tmp) (buf : ℕ) (n : BitVec 64), n.toNat < 10 ^ 8 → buf + 8 ≤ TMP_SIZE →
      Puts tmp buf (decimal n.toNat) (putDecTrunc8 tmp buf (n.setWidth 32)) := by
    intro tmp buf n hn hbuf
    have hset : (n.setWidth 32).toNat = n.toNat := by
      rw [BitVec.toNat_setWidth]
      omega
    rw [← hset]
    exact putDecTrunc8_puts tmp (hset ▸ hn) hbuf
  have second : ∀ (tmp : Tmp) (buf : ℕ) (n : BitVec 64), n.toNat < 10 ^ 16 → buf + 16 ≤ TMP_SIZE →
      Puts tmp buf (decimal n.toNat) (putDecStep tmp buf n >>= fun p =>
        putDecTrunc8 p.1 p.2.1 (p.2.2.setWidth 32)) := by
    intro tmp buf n hn hbuf
    refine putDecStep_trans (by omega) (fun h => trunc tmp buf n h (by omega)) fun tmp' q _ hq => ?_
    exact trunc tmp' (buf + 8) q (by omega) (by omega)
  have hlt := n.isLt
  refine putDecStep_trans (by decide) (fun h => second tmp 0 n (by omega) (by decide)) fun tmp' q _ hq => ?_
  exact second tmp' 8 q (by omega) (by decide)

/-! ### The bases 8 and 16 -/

/-- The bit of lower case. -/
def lowerCase (small : Bool) : BitVec 8 := if small then SMALL else 0

theorem hexAscUpper_eq {d : ℕ} (hd : d < 16) (small : Bool) :
    ∃ c, hexAscUpper d = some c ∧ c ||| lowerCase small = digitChar small d := by
  have key : ∀ d < 16, ∀ small, (hexAscUpper d).map (· ||| lowerCase small) = some (digitChar small d) := by
    decide
  exact Option.map_eq_some_iff.mp (key d hd small)

/-- One digit at the end. -/
theorem write_digit (tmp : Tmp) {i d : ℕ} (hd : d < 16) (small : Bool) (hi : i < TMP_SIZE) :
    ∃ c tmp', hexAscUpper d = some c ∧ Tmp.write tmp i (c ||| lowerCase small) = some tmp' ∧
      bytes tmp' (i + 1) = bytes tmp i ++ text small [d] := by
  obtain ⟨c, hc, hchar⟩ := hexAscUpper_eq hd small
  exact ⟨c, _, hc, if_pos hi, by rw [bytes_write, hchar]; rfl⟩

theorem shiftLoop_puts {mask : BitVec 8} {shift : ℕ} (hshift : 0 < shift) (hfour : shift ≤ 4)
    (hmask : ∀ x : BitVec 64, (x.setWidth 8 &&& mask).toNat = x.toNat % 2 ^ shift) (small : Bool)
    (num : BitVec 64) (tmp : Tmp) (i : ℕ) (hi : i + (numeral (2 ^ shift) num.toNat).length ≤ TMP_SIZE) :
    Puts tmp i (text small (numeral (2 ^ shift) num.toNat))
      (shiftLoop mask shift (lowerCase small) hshift tmp i num) := by
  have hbase : 1 < 2 ^ shift := Nat.one_lt_two_pow hshift.ne'
  have hsixteen : 2 ^ shift ≤ 16 := Nat.pow_le_pow_right (by decide) hfour
  induction hn : num.toNat using Nat.strong_induction_on generalizing num tmp i with
  | _ n ih =>
    subst hn
    have hpos := List.length_pos_of_ne_nil (numeral_ne_nil (b := 2 ^ shift) num.toNat)
    have hnext : (num >>> shift).toNat = num.toNat / 2 ^ shift := by
      rw [BitVec.toNat_ushiftRight, Nat.shiftRight_eq_div_pow]
    obtain ⟨c, tmp', hc, hwrite, hbytes⟩ := write_digit tmp (i := i)
      ((Nat.mod_lt num.toNat (by omega)).trans_le hsixteen) small (by omega)
    rw [shiftLoop]
    simp only [hmask, hc, hwrite, Option.bind_eq_bind, Option.bind_some]
    rcases Nat.lt_or_ge num.toNat (2 ^ shift) with hlt | hge
    · -- the last digit
      have hzero : num >>> shift = 0 := BitVec.eq_of_toNat_eq (by rw [hnext, Nat.div_eq_of_lt hlt]; rfl)
      rw [if_neg (not_not.mpr hzero), numeral_of_lt hlt]
      rw [Nat.mod_eq_of_lt hlt] at hbytes
      exact ⟨tmp', rfl, hbytes⟩
    · have hdiv : 0 < num.toNat / 2 ^ shift := Nat.div_pos hge (by omega)
      have hne : num >>> shift ≠ 0 := fun h => by simp [h] at hnext; omega
      rw [numeral_of_le hbase hge, List.length_cons] at hi
      rw [if_pos hne, numeral_of_le hbase hge]
      refine Puts.trans (L := text small [num.toNat % 2 ^ shift]) hbytes ?_
      have := ih _ (Nat.div_lt_self (by omega) hbase) (num >>> shift) tmp' (i + 1)
        (by rw [hnext]; omega) hnext
      exact this

end HardStack.Kasprintf.Digits
