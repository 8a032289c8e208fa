import HardStack.Kasprintf.Digits

/-! # The output of `number`

Every loop emits a list; `number` emits the **layout** of its number, whatever the end of the buffer is.
The one width counter goes below zero in the first loop that counts it down, so that the loops after it
emit nothing. -/

namespace HardStack.Kasprintf.Number

open HardStack.Kasprintf.Model HardStack.Kasprintf.Digits HardStack.Lib.Numeral

/-! ### Lists of characters -/

/-- One character after the other. -/
def emits (stop : ℕ) (L : List (BitVec 8)) (s : Out) : Out := L.foldl (fun s c => emit stop c s) s

@[simp] theorem emits_nil (stop : ℕ) (s : Out) : emits stop [] s = s := rfl

theorem emits_cons (stop : ℕ) (c : BitVec 8) (L : List (BitVec 8)) (s : Out) :
    emits stop (c :: L) s = emits stop L (emit stop c s) := rfl

theorem emits_append (stop : ℕ) (L M : List (BitVec 8)) (s : Out) :
    emits stop (L ++ M) s = emits stop M (emits stop L s) := by simp [emits]

theorem emits_buf (stop : ℕ) (L : List (BitVec 8)) (s : Out) :
    (emits stop L s).buf = s.buf + L.length := by
  induction L generalizing s with
  | nil => rfl
  | cons c L ih => rw [emits_cons, ih, List.length_cons]; simp [emit]; omega

/-- What is in front of `buf`, and what is beyond the end, stays. -/
theorem emits_mem_of_not (stop : ℕ) (L : List (BitVec 8)) (s : Out) {a : ℕ}
    (ha : a < s.buf ∨ s.buf + L.length ≤ a ∨ stop ≤ a) : (emits stop L s).mem a = s.mem a := by
  induction L generalizing s with
  | nil => rfl
  | cons c L ih =>
    rw [List.length_cons] at ha
    rw [emits_cons, ih (emit stop c s) (by simp only [emit]; omega)]
    simp only [emit]
    split_ifs with h
    · exact Function.update_of_ne (by omega) _ _
    · rfl

theorem emits_mem (stop : ℕ) (L : List (BitVec 8)) (s : Out) {k : ℕ} (hk : k < L.length)
    (hstop : s.buf + k < stop) : (emits stop L s).mem (s.buf + k) = L[k] := by
  induction L generalizing s k with
  | nil => simp at hk
  | cons c L ih =>
    rw [emits_cons]
    cases k with
    | zero =>
      rw [emits_mem_of_not stop L _ (Or.inl (by simp [emit]))]
      simp only [add_zero] at hstop
      simp [emit, hstop]
    | succ k =>
      have := ih (emit stop c s) (k := k) (by simpa using hk) (by simp only [emit]; omega)
      simpa [emit, add_assoc, add_comm 1 k] using this

/-! ### The loops -/

theorem widthLoop_eq (stop : ℕ) (c : BitVec 8) (fw : ℤ) (s : Out) :
    widthLoop stop c fw s = (min (fw - 1) (-1), emits stop (List.replicate fw.toNat c) s) := by
  induction fw, s using widthLoop.induct stop c with
  | case1 fw s h ih =>
    have hsucc : fw.toNat = (fw - 1).toNat + 1 := by omega
    rw [widthLoop, if_pos h, ih, hsucc, List.replicate_succ, emits_cons, min_eq_right (by omega),
      min_eq_right (by omega)]
  | case2 fw s h =>
    have hzero : fw.toNat = 0 := by omega
    rw [widthLoop, if_neg h, hzero, List.replicate_zero, emits_nil, min_eq_left (by omega)]

theorem precisionLoop_eq (stop : ℕ) (i p : ℤ) (s : Out) :
    precisionLoop stop i p s = emits stop (List.replicate (p - i).toNat 0x30) s := by
  induction p, s using precisionLoop.induct stop i with
  | case1 p s h ih =>
    have hsucc : (p - i).toNat = (p - 1 - i).toNat + 1 := by omega
    rw [precisionLoop, if_pos h, ih, hsucc, List.replicate_succ, emits_cons]
  | case2 p s h =>
    have hzero : (p - i).toNat = 0 := by omega
    rw [precisionLoop, if_neg h, hzero, List.replicate_zero, emits_nil]

theorem digitsLoop_eq (stop : ℕ) (tmp : Tmp) (i : ℕ) (s : Out) :
    digitsLoop stop tmp i s = emits stop (bytes tmp i).reverse s := by
  induction i generalizing s with
  | zero => rfl
  | succ i ih => rw [digitsLoop, ih, bytes_succ, List.reverse_append]; rfl

/-! ### The digits -/

/-- The flags as propositions. -/
def has (flags flag : BitVec 8) : Bool := flags &&& flag ≠ 0

theorem has_iff {flags flag : BitVec 8} : has flags flag = true ↔ ¬ flags &&& flag = 0 := decide_eq_true_iff

theorem has_eq_false_iff {flags flag : BitVec 8} : has flags flag = false ↔ flags &&& flag = 0 :=
  decide_eq_false_iff_not.trans not_not

theorem lowerCase_has (flags : BitVec 8) : flags &&& SMALL = lowerCase (has flags SMALL) := by
  revert flags
  decide

theorem text_decimal (small : Bool) {L : List ℕ} (hL : ∀ d ∈ L, d < 10) : text small L = text false L :=
  List.map_congr_left fun d hd => by simp [digitChar, hL d hd]

theorem mask_eight (x : BitVec 64) : (x.setWidth 8 &&& BitVec.ofNat 8 (8 - 1)).toNat = x.toNat % 2 ^ 3 := by
  rw [BitVec.toNat_and, BitVec.toNat_setWidth]
  show x.toNat % 2 ^ 8 &&& 2 ^ 3 - 1 = _
  rw [Nat.and_two_pow_sub_one_eq_mod]
  omega

theorem mask_sixteen (x : BitVec 64) : (x.setWidth 8 &&& BitVec.ofNat 8 (16 - 1)).toNat = x.toNat % 2 ^ 4 := by
  rw [BitVec.toNat_and, BitVec.toNat_setWidth]
  show x.toNat % 2 ^ 8 &&& 2 ^ 4 - 1 = _
  rw [Nat.and_two_pow_sub_one_eq_mod]
  omega

/-- The bases of the conversions. -/
def IsBase (base : ℕ) : Prop := base = 8 ∨ base = 10 ∨ base = 16

theorem IsBase.bounds {base : ℕ} (hbase : IsBase base) : 8 ≤ base ∧ base ≤ 16 := by
  rcases hbase with rfl | rfl | rfl <;> decide

/-- Twenty-two digits at most, which is the octal case. -/
theorem length_numeral_base {base : ℕ} (hbase : IsBase base) (num : BitVec 64) :
    (numeral base num.toNat).length ≤ 22 := by
  have hpow : 8 ^ 22 ≤ base ^ 22 := Nat.pow_le_pow_left hbase.bounds.1 22
  have hlt := num.isLt
  exact length_numeral_le (by have := hbase.bounds; omega) (by decide) (by omega)

theorem numberDigits_puts {base : ℕ} (hbase : IsBase base) (small : Bool) (num : BitVec 64) :
    Puts (fun _ => 0) 0 (text small (numeral base num.toNat)) (numberDigits num base (lowerCase small)) := by
  have hroom : 0 + (numeral base num.toNat).length ≤ TMP_SIZE :=
    (Nat.zero_add _).trans_le ((length_numeral_base hbase num).trans (by decide))
  unfold numberDigits
  split_ifs with hlt hten hsixteen
  · obtain ⟨c, tmp', hc, hwrite, hbytes⟩ := write_digit (fun _ => 0) (i := 0)
      (hlt.trans_le hbase.bounds.2) small (by decide)
    rw [numeral_of_lt hlt]
    refine ⟨tmp', ?_, hbytes⟩
    simp only [hc, hwrite, Option.bind_eq_bind, Option.bind_some]
    rfl
  · subst hsixteen
    exact shiftLoop_puts (by decide) (by decide) mask_sixteen small num _ 0 hroom
  · obtain rfl : base = 8 := by rcases hbase with h | h | h <;> simp_all
    exact shiftLoop_puts (by decide) (by decide) mask_eight small num _ 0 hroom
  · obtain rfl : base = 10 := not_not.mp hten
    rw [text_decimal small fun d hd => lt_of_mem_numeral (by decide) hd]
    exact putDec_puts _ num

/-! ### The layout -/

/-- The sign. -/
def signText (flags : BitVec 8) (num : BitVec 64) : List (BitVec 8) :=
  if has flags SIGN then
    if num.toInt < 0 then [0x2d] else if has flags PLUS then [0x2b] else if has flags SPACE then [0x20] else []
  else []

/-- The number without its sign. -/
def magnitude (flags : BitVec 8) (num : BitVec 64) : ℕ :=
  if has flags SIGN then num.toInt.natAbs else num.toNat

/-- The prefix: `0x` of base 16, and `0` of a number of base 8 that is not zero. -/
def basePrefix (spec : PrintfSpec) (num : BitVec 64) : List (BitVec 8) :=
  if has spec.flags SPECIAL then
    if spec.base = 16 then [0x30, if has spec.flags SMALL then 0x78 else 0x58]
    else if spec.base = 8 ∧ num ≠ 0 then [0x30] else []
  else []

/-- The digits, most significant first. -/
def digitText (spec : PrintfSpec) (num : BitVec 64) : List (BitVec 8) :=
  (text (has spec.flags SMALL) (numeral spec.base (magnitude spec.flags num))).reverse

/-- The length without the padding to the field width. -/
def unpadded (spec : PrintfSpec) (num : BitVec 64) : ℤ :=
  (signText spec.flags num).length + (basePrefix spec num).length +
    max spec.precision (digitText spec num).length

/-- What is left of the field width. -/
def pad (spec : PrintfSpec) (num : BitVec 64) : ℕ := (spec.fieldWidth - unpadded spec num).toNat

/-- Spaces, sign, prefix, zeros, digits and spaces. -/
def layout (spec : PrintfSpec) (num : BitVec 64) : List (BitVec 8) :=
  (if has spec.flags LEFT ∨ has spec.flags ZEROPAD then [] else List.replicate (pad spec num) 0x20) ++
  signText spec.flags num ++ basePrefix spec num ++
  (if has spec.flags ZEROPAD ∧ ¬ has spec.flags LEFT then List.replicate (pad spec num) 0x30 else []) ++
  List.replicate (spec.precision - (digitText spec num).length).toNat 0x30 ++
  digitText spec num ++
  if has spec.flags LEFT then List.replicate (pad spec num) 0x20 else []

theorem length_layout (spec : PrintfSpec) (num : BitVec 64) :
    ((layout spec num).length : ℤ) = max spec.fieldWidth (unpadded spec num) := by
  have hpad : (pad spec num : ℤ) = max (spec.fieldWidth - unpadded spec num) 0 := by
    unfold pad
    omega
  simp only [layout, List.length_append, List.length_replicate, apply_ite List.length, List.length_nil]
  cases has spec.flags LEFT <;> cases has spec.flags ZEROPAD <;> simp [unpadded] at hpad ⊢ <;> omega

/-! ### `number` -/

theorem numberSign_eq (flags : BitVec 8) (num : BitVec 64) (fw : ℤ) :
    ∃ sign mag, numberSign num flags fw = (sign, mag, fw - (signText flags num).length) ∧
      mag.toNat = magnitude flags num ∧
      signText flags num = if sign ≠ 0 then [sign] else [] := by
  have habs : num.toInt < 0 → (-num).toNat = num.toInt.natAbs := by
    intro h
    have := BitVec.toInt_neg_iff.mp h
    rw [BitVec.toInt_eq_toNat_cond, if_neg (by omega), BitVec.toNat_neg]
    omega
  have hsame : ¬ num.toInt < 0 → num.toNat = num.toInt.natAbs := by
    intro h
    have := mt BitVec.toInt_neg_iff.mpr h
    rw [BitVec.toInt_eq_toNat_cond, if_pos (by omega)]
    omega
  unfold numberSign signText magnitude
  simp only [has, decide_eq_true_eq]
  split_ifs with h1 h2 h3 h4
  · exact ⟨0x2d, -num, rfl, habs h2, rfl⟩
  · exact ⟨0x2b, num, rfl, hsame h2, rfl⟩
  · exact ⟨0x20, num, rfl, hsame h2, rfl⟩
  · exact ⟨0, num, by simp, hsame h2, rfl⟩
  · exact ⟨0, num, by simp, rfl, rfl⟩

theorem emitPrefix_eq (stop : ℕ) {spec : PrintfSpec} (hbase : IsBase spec.base) (num : BitVec 64)
    (h : has spec.flags SPECIAL ∧ spec.base ≠ 10) (s : Out) :
    emitPrefix stop spec.base (num = 0 : Bool) (lowerCase (has spec.flags SMALL)) s =
      emits stop (basePrefix spec num) s := by
  have hcase : ∀ small, (if small then 0x78 else 0x58 : BitVec 8) = 0x58 ||| lowerCase small := by decide
  rcases hbase with heq | heq | heq
  · have hpre : basePrefix spec num = if num = 0 then [] else [0x30] := by
      simp [basePrefix, heq, h.1]
    rw [hpre, emitPrefix, heq]
    by_cases hz : num = 0
    · simp [hz]
    · simp only [hz]
      rfl
  · exact absurd heq h.2
  · have hpre : basePrefix spec num = [0x30, 0x58 ||| lowerCase (has spec.flags SMALL)] := by
      rw [← hcase]
      simp [basePrefix, heq, h.1]
    rw [hpre, emitPrefix, heq]
    rfl

theorem has_leftFlags (flags : BitVec 8) : has (leftFlags flags) SIGN = has flags SIGN ∧
    has (leftFlags flags) PLUS = has flags PLUS ∧ has (leftFlags flags) SPACE = has flags SPACE ∧
    has (leftFlags flags) LEFT = has flags LEFT ∧
    has (leftFlags flags) (ZEROPAD ||| LEFT) = (has flags LEFT || has flags ZEROPAD) ∧
    (has flags LEFT = false →
      0x20 + (leftFlags flags &&& ZEROPAD) = if has flags ZEROPAD then 0x30 else 0x20) := by
  revert flags
  decide

theorem basePrefix_eq_nil {spec : PrintfSpec} (num : BitVec 64)
    (h : ¬ (spec.flags &&& SPECIAL ≠ 0 ∧ spec.base ≠ 10)) : basePrefix spec num = [] := by
  unfold basePrefix
  split_ifs with hs h16 h8
  · exact absurd ⟨has_iff.mp hs, by omega⟩ h
  · exact absurd ⟨has_iff.mp hs, by omega⟩ h
  · rfl
  · rfl

theorem prefixWidth_eq {spec : PrintfSpec} (hbase : IsBase spec.base) (num : BitVec 64) (fw : ℤ) :
    prefixWidth (spec.flags &&& SPECIAL ≠ 0 ∧ spec.base ≠ 10 : Bool) spec.base (num = 0 : Bool) fw =
      fw - (basePrefix spec num).length := by
  have hneed : (spec.flags &&& SPECIAL ≠ 0 ∧ spec.base ≠ 10 : Bool) =
      (has spec.flags SPECIAL && decide (spec.base ≠ 10)) := Bool.decide_and _ _
  rw [hneed]
  unfold prefixWidth basePrefix
  generalize has spec.flags SPECIAL = special
  generalize has spec.flags SMALL = small
  rcases hbase with heq | heq | heq <;> cases special <;> by_cases hz : num = 0 <;>
    simp only [heq, hz, ne_eq] <;> simp

theorem numberOut_eq (stop : ℕ) {spec : PrintfSpec} (hbase : IsBase spec.base) (num : BitVec 64)
    {sign : BitVec 8} (hsign : signText spec.flags num = if sign ≠ 0 then [sign] else [])
    {tmp : Tmp} {i : ℕ} (hbytes : (bytes tmp i).reverse = digitText spec num) {precision fw : ℤ}
    (hprec : precision = max spec.precision i) (hfw : fw = spec.fieldWidth - unpadded spec num) (s : Out) :
    numberOut stop (leftFlags spec.flags) spec.base (spec.flags &&& SPECIAL ≠ 0 ∧ spec.base ≠ 10 : Bool)
      (num = 0 : Bool) (lowerCase (has spec.flags SMALL)) sign tmp i precision fw s =
      emits stop (layout spec num) s := by
  obtain ⟨-, -, -, hleft, hnone, hpad⟩ := has_leftFlags spec.flags
  have hlen : i = (digitText spec num).length := by simpa using congrArg List.length hbytes
  have hzeros : (precision - i).toNat = (spec.precision - (digitText spec num).length).toNat := by omega
  have hspent : ∀ fw : ℤ, (min (fw - 1) (-1)).toNat = 0 := fun fw => by omega
  have hsigned : ∀ s, (if sign ≠ 0 then emit stop sign s else s) = emits stop (signText spec.flags num) s := by
    intro s
    rw [hsign]
    split_ifs <;> rfl
  have hpreed : ∀ s, (if (spec.flags &&& SPECIAL ≠ 0 ∧ spec.base ≠ 10 : Bool) then
      emitPrefix stop spec.base (num = 0 : Bool) (lowerCase (has spec.flags SMALL)) s else s) =
        emits stop (basePrefix spec num) s := by
    intro s
    split_ifs with h
    · have hneed := of_decide_eq_true h
      exact emitPrefix_eq stop hbase num ⟨decide_eq_true hneed.1, hneed.2⟩ s
    · rw [basePrefix_eq_nil num (of_decide_eq_false (Bool.not_eq_true _ ▸ h))]
      rfl
  unfold numberOut layout
  simp only [hsigned, hpreed, precisionLoop_eq, digitsLoop_eq, hbytes, hzeros, emits_append, pad, ← hfw]
  cases hl : has spec.flags LEFT with
  | true =>
    have hne : ¬ leftFlags spec.flags &&& (ZEROPAD ||| LEFT) = 0 := has_iff.mp (by rw [hnone, hl]; rfl)
    have hne' : ¬ leftFlags spec.flags &&& LEFT = 0 := has_iff.mp (by rw [hleft, hl])
    rw [if_neg hne, if_neg hne']
    simp [widthLoop_eq]
  | false =>
    have he' : leftFlags spec.flags &&& LEFT = 0 := has_eq_false_iff.mp (by rw [hleft, hl])
    cases hz : has spec.flags ZEROPAD with
    | true =>
      have hne : ¬ leftFlags spec.flags &&& (ZEROPAD ||| LEFT) = 0 := has_iff.mp (by rw [hnone, hz, hl]; rfl)
      rw [if_neg hne, if_pos he', hpad hl, hz]
      simp [widthLoop_eq, hspent]
    | false =>
      have he : leftFlags spec.flags &&& (ZEROPAD ||| LEFT) = 0 :=
        has_eq_false_iff.mp (by rw [hnone, hz, hl]; rfl)
      rw [if_pos he, if_pos he']
      simp [widthLoop_eq, hspent]

theorem number_layout (stop : ℕ) (num : BitVec 64) {spec : PrintfSpec} (hbase : IsBase spec.base) (s : Out) :
    number stop num spec s = some (emits stop (layout spec num) s) := by
  obtain ⟨sign, mag, hsign, hmag, htext⟩ := numberSign_eq (leftFlags spec.flags) num spec.fieldWidth
  obtain ⟨tmp', hdigits, hbytes⟩ := numberDigits_puts hbase (has spec.flags SMALL) mag
  obtain ⟨hs, hp, hsp, -⟩ := has_leftFlags spec.flags
  have hst : signText (leftFlags spec.flags) num = signText spec.flags num := by
    simp only [signText, hs, hp, hsp]
  rw [hst] at hsign htext
  rw [magnitude, hs, ← magnitude] at hmag
  rw [hmag, length_text, Nat.zero_add] at hdigits hbytes
  unfold number
  simp only [lowerCase_has, hsign, prefixWidth_eq hbase, hdigits, Option.bind_eq_bind, Option.bind_some]
  rw [numberOut_eq stop hbase num htext]
  · rw [hbytes]; rfl
  · split_ifs <;> omega
  · simp [unpadded, digitText]
    split_ifs <;> omega

/-! ### The text -/

/-- With enough room `number` writes the layout, of the length of the field or longer, and touches nothing
else; the digits are the numeral of the magnitude and fit `tmp`. `put_dec` writes the decimal numeral. -/
theorem number_spec :
    (∀ (stop : ℕ) (num : BitVec 64) (spec : PrintfSpec) (s : Out), IsBase spec.base →
      s.buf + (layout spec num).length ≤ stop →
      ∃ s', number stop num spec s = some s' ∧ s'.buf = s.buf + (layout spec num).length ∧
        (∀ k (hk : k < (layout spec num).length), s'.mem (s.buf + k) = (layout spec num)[k]) ∧
        (∀ a, a < s.buf ∨ s'.buf ≤ a → s'.mem a = s.mem a) ∧
        ((layout spec num).length : ℤ) = max spec.fieldWidth (unpadded spec num) ∧
        (digitText spec num).length ≤ TMP_SIZE ∧
        Nat.ofDigits spec.base (numeral spec.base (magnitude spec.flags num)) = magnitude spec.flags num ∧
        (∀ d ∈ numeral spec.base (magnitude spec.flags num), d < spec.base) ∧
        (magnitude spec.flags num ≠ 0 →
          (numeral spec.base (magnitude spec.flags num)).getLast? ≠ some 0)) ∧
    ∀ (tmp : Tmp) (n : BitVec 64), ∃ tmp', putDec tmp 0 n = some (tmp', (numeral 10 n.toNat).length) ∧
      bytes tmp' (numeral 10 n.toNat).length = text false (numeral 10 n.toNat) := by
  refine ⟨fun stop num spec s hbase hroom => ?_, fun tmp n => ?_⟩
  · have hbuf := emits_buf stop (layout spec num) s
    refine ⟨_, number_layout stop num hbase s, hbuf, fun k hk => emits_mem stop _ s hk (by omega),
      fun a ha => emits_mem_of_not stop _ s (by omega), length_layout spec num, ?_, ofDigits_numeral _,
      fun d hd => lt_of_mem_numeral (by have := hbase.bounds; omega) hd, fun hne h => ?_⟩
    · obtain ⟨sign, mag, -, hmag, -⟩ := numberSign_eq spec.flags num 0
      rw [digitText, List.length_reverse, length_text, ← hmag]
      exact (length_numeral_base hbase mag).trans (by decide)
    · rw [List.getLast?_eq_some_getLast (numeral_ne_nil _), Option.some_inj] at h
      exact getLast_numeral_ne_zero hne h
  · simpa [Puts, decimal, bytes] using putDec_puts tmp n

/-- `255` with the flags of `%#010x`. -/
theorem number_spec_hex :
    let spec : PrintfSpec := ⟨10, ZEROPAD ||| SMALL ||| SPECIAL, 16, -1⟩
    ∃ s', number 16 255 spec ⟨fun _ => 0, 3⟩ = some s' ∧ s'.buf = 13 ∧ s'.mem 12 = 0x66 := by
  intro spec
  have hdigits : digitText spec 255 = [0x66, 0x66] := by
    simp [digitText, text, numeral, magnitude, spec, has, SIGN, ZEROPAD, SMALL, SPECIAL, digitChar]
  have hlayout : layout spec 255 =
      [0x30, 0x78, 0x30, 0x30, 0x30, 0x30, 0x30, 0x30, 0x66, 0x66] := by
    simp only [layout, pad, unpadded, hdigits]
    decide
  obtain ⟨s', hs, hbuf, hmem, -⟩ := number_spec.1 16 255 spec ⟨fun _ => 0, 3⟩ (Or.inr (Or.inr rfl))
    (by rw [hlayout]; decide)
  refine ⟨s', hs, by rw [hbuf, hlayout]; rfl, ?_⟩
  have h := hmem 9 (by rw [hlayout]; decide)
  simp only [hlayout] at h
  exact h

end HardStack.Kasprintf.Number
