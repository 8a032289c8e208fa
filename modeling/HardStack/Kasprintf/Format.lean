import HardStack.Kasprintf.Model

/-! # `vsnprintf` of `Memory-Allocator/slab/slub_userspace/mm/kasprintf.c`

The decoder, the conversions and `kvasprintf`. A C string is the list of its characters, and what comes
after them is NUL. An argument of another kind than the conversion reads has no result, and neither has
`%p`, whose `pointer` returns nothing. The two bit fields of `struct printf_spec` wrap. -/

namespace HardStack.Kasprintf.Format

open HardStack.Kasprintf.Model

/-- `enum format_type`. -/
inductive FormatType
  | none
  | width
  | precision
  | char
  | str
  | ptr
  | percentChar
  | invalid
  | longLong
  | ulong
  | long
  | ubyte
  | byte
  | ushort
  | short
  | uint
  | int
  | sizeT
  | ptrdiff
  deriving DecidableEq

/-- `struct printf_spec` with its type. -/
structure DecodeSpec extends PrintfSpec where
  type : FormatType
  deriving DecidableEq

/-- `{0}`. -/
def DecodeSpec.zero : DecodeSpec where
  fieldWidth := 0
  flags := 0
  base := 0
  precision := 0
  type := .none

/-- `signed int field_width:24`. -/
def signed24 (x : ℤ) : ℤ := x.bmod (2 ^ 24)

/-- `signed int precision:16`. -/
def signed16 (x : ℤ) : ℤ := x.bmod (2 ^ 16)

/-- `*fmt`. -/
def deref (fmt : List (BitVec 8)) : BitVec 8 := fmt.headD 0

def isdigit (c : BitVec 8) : Bool := 0x30 ≤ c.toNat ∧ c.toNat ≤ 0x39

def toLower (c : BitVec 8) : BitVec 8 := c ||| 0x20

/-- `skip_atoi`. -/
def skipAtoi : BitVec 32 → List (BitVec 8) → BitVec 32 × List (BitVec 8)
  | i, [] => (i, [])
  | i, c :: s =>
    let i := i * 10 + c.setWidth 32 - 0x30
    if isdigit (deref s) then skipAtoi i s else (i, s)

/-! ### `format_decode` -/

/-- The types of the integers. -/
def integerType (qualifier flags : BitVec 8) : FormatType :=
  let signed := flags &&& SIGN ≠ 0
  if qualifier = 0x4c then .longLong
  else if qualifier = 0x6c then if signed then .long else .ulong
  else if qualifier = 0x7a then .sizeT
  else if qualifier = 0x74 then .ptrdiff
  else if qualifier = 0x48 then if signed then .byte else .ubyte
  else if qualifier = 0x68 then if signed then .short else .ushort
  else if signed then .int else .uint

/-- The `switch` on the conversion. -/
def decodeType (fmt : List (BitVec 8)) (qualifier : BitVec 8) (spec : DecodeSpec) :
    List (BitVec 8) × DecodeSpec :=
  let integer (spec : DecodeSpec) := (fmt.tail, { spec with type := integerType qualifier spec.flags })
  match (deref fmt).toNat with
  | 0x63 => (fmt.tail, { spec with type := .char })
  | 0x73 => (fmt.tail, { spec with type := .str })
  | 0x70 => (fmt.tail, { spec with type := .ptr })
  | 0x25 => (fmt.tail, { spec with type := .percentChar })
  | 0x6f => integer { spec with base := 8 }
  | 0x78 => integer { spec with flags := spec.flags ||| SMALL, base := 16 }
  | 0x58 => integer { spec with base := 16 }
  | 0x64 => integer { spec with flags := spec.flags ||| SIGN }
  | 0x69 => integer { spec with flags := spec.flags ||| SIGN }
  | 0x75 => integer spec
  | _ => (fmt, { spec with type := .invalid })

/-- The qualifier, and what is after it. -/
def decodeQualifierChar (fmt : List (BitVec 8)) : BitVec 8 × List (BitVec 8) :=
  let c := deref fmt
  if c = 0x68 ∨ toLower c = 0x6c ∨ c = 0x7a ∨ c = 0x74 then
    let fmt := fmt.tail
    if c = deref fmt then
      if c = 0x6c then (0x4c, fmt.tail)
      else if c = 0x68 then (0x48, fmt.tail)
      else (c, fmt)
    else (c, fmt)
  else (0, fmt)

/-- From the label `qualifier` on. -/
def decodeQualifier (fmt : List (BitVec 8)) (spec : DecodeSpec) : List (BitVec 8) × DecodeSpec :=
  let (qualifier, fmt) := decodeQualifierChar fmt
  decodeType fmt qualifier { spec with base := 10 }

/-- From the label `precision` on. -/
def decodePrecision (fmt : List (BitVec 8)) (spec : DecodeSpec) : List (BitVec 8) × DecodeSpec :=
  let spec := { spec with precision := -1 }
  if deref fmt = 0x2e then
    let fmt := fmt.tail
    if isdigit (deref fmt) then
      let (precision, fmt) := skipAtoi 0 fmt
      decodeQualifier fmt { spec with precision := max (signed16 precision.toInt) 0 }
    else if deref fmt = 0x2a then (fmt.tail, { spec with type := .precision })
    else decodeQualifier fmt spec
  else decodeQualifier fmt spec

/-- The characters up to the next `%`. -/
def skipLiteral : List (BitVec 8) → List (BitVec 8)
  | [] => []
  | c :: fmt => if c = 0 ∨ c = 0x25 then c :: fmt else skipLiteral fmt

def flagOf (c : BitVec 8) : Option (BitVec 8) :=
  match c.toNat with
  | 0x2d => some LEFT
  | 0x2b => some PLUS
  | 0x20 => some SPACE
  | 0x23 => some SPECIAL
  | 0x30 => some ZEROPAD
  | _ => none

/-- The flags, from the character after `%` on. -/
def flagsLoop : List (BitVec 8) → BitVec 8 → List (BitVec 8) × BitVec 8
  | [], flags => ([], flags)
  | c :: fmt, flags =>
    match flagOf c with
    | some flag => flagsLoop fmt (flags ||| flag)
    | none => (c :: fmt, flags)

/-- `format_decode`: what is left of the format. -/
def formatDecode (fmt : List (BitVec 8)) (spec : DecodeSpec) : List (BitVec 8) × DecodeSpec :=
  if spec.type = .width then
    let spec :=
      if spec.fieldWidth < 0 then
        { spec with fieldWidth := signed24 (-spec.fieldWidth), flags := spec.flags ||| LEFT }
      else spec
    decodePrecision fmt { spec with type := .none }
  else if spec.type = .precision then
    decodeQualifier fmt { spec with precision := max spec.precision 0, type := .none }
  else
    let spec := { spec with type := .none }
    let start := fmt
    let fmt := skipLiteral fmt
    if fmt.length ≠ start.length ∨ deref fmt = 0 then (fmt, spec)
    else
      let (fmt, flags) := flagsLoop fmt.tail 0
      let spec := { spec with flags := flags, fieldWidth := -1 }
      if isdigit (deref fmt) then
        let (width, fmt) := skipAtoi 0 fmt
        decodePrecision fmt { spec with fieldWidth := signed24 width.toInt }
      else if deref fmt = 0x2a then (fmt.tail, { spec with type := .width })
      else decodePrecision fmt spec

/-! ### The conversions -/

/-- What stands in a `va_list`; a string below `PAGE_SIZE` is `none`. -/
inductive Arg
  | int (x : BitVec 32)
  | long (x : BitVec 64)
  | str (s : Option (List (BitVec 8)))

theorem ne_nil_of_deref {fmt : List (BitVec 8)} (h : deref fmt ≠ 0) : fmt ≠ [] := by
  rintro rfl
  exact h rfl

theorem length_tail_lt {fmt : List (BitVec 8)} (h : deref fmt ≠ 0) : fmt.tail.length < fmt.length := by
  have := List.length_pos_of_ne_nil (ne_nil_of_deref h)
  rw [List.length_tail]
  omega

theorem decodeType_length {fmt : List (BitVec 8)} {qualifier : BitVec 8} {spec : DecodeSpec}
    (h : (decodeType fmt qualifier spec).2.type ≠ .invalid) :
    (decodeType fmt qualifier spec).1.length < fmt.length := by
  have key : ∀ n, (deref fmt).toNat = n → n ≠ 0 → fmt.tail.length < fmt.length := by
    intro n hn h0
    refine length_tail_lt fun hz => h0 ?_
    rw [← hn, hz]
    rfl
  unfold decodeType at h ⊢
  dsimp only at h ⊢
  split <;> first | exact key _ ‹_› (by decide) | simp at h

theorem decodeQualifierChar_length (fmt : List (BitVec 8)) :
    (decodeQualifierChar fmt).2.length ≤ fmt.length := by
  unfold decodeQualifierChar
  dsimp only
  split_ifs <;> simp only [List.length_tail] <;> omega

theorem decodeQualifier_length {fmt : List (BitVec 8)} {spec : DecodeSpec}
    (h : (decodeQualifier fmt spec).2.type ≠ .invalid) :
    (decodeQualifier fmt spec).1.length < fmt.length :=
  (decodeType_length h).trans_le (decodeQualifierChar_length fmt)

theorem skipAtoi_length (i : BitVec 32) (s : List (BitVec 8)) : (skipAtoi i s).2.length ≤ s.length := by
  induction s generalizing i with
  | nil => exact le_rfl
  | cons c s ih =>
    rw [skipAtoi]
    split_ifs
    · exact (ih _).trans (Nat.le_succ _)
    · exact Nat.le_succ _

theorem decodePrecision_length {fmt : List (BitVec 8)} {spec : DecodeSpec}
    (h : (decodePrecision fmt spec).2.type ≠ .invalid) :
    (decodePrecision fmt spec).1.length < fmt.length := by
  unfold decodePrecision at h ⊢
  dsimp only at h ⊢
  have hskip := skipAtoi_length 0 fmt.tail
  split_ifs at h ⊢ with hdot hdigit hstar
  · have htail : fmt.tail.length < fmt.length := length_tail_lt (by rw [hdot]; decide)
    have := decodeQualifier_length h
    omega
  · have htail : fmt.tail.length < fmt.length := length_tail_lt (by rw [hdot]; decide)
    show fmt.tail.tail.length < _
    rw [List.length_tail]
    omega
  · have htail : fmt.tail.length < fmt.length := length_tail_lt (by rw [hdot]; decide)
    exact (decodeQualifier_length h).trans htail
  · exact decodeQualifier_length h

theorem skipLiteral_length (fmt : List (BitVec 8)) : (skipLiteral fmt).length ≤ fmt.length := by
  induction fmt with
  | nil => exact le_rfl
  | cons c fmt ih =>
    rw [skipLiteral]
    split_ifs
    · exact le_rfl
    · exact ih.trans (Nat.le_succ _)

theorem skipLiteral_eq {fmt : List (BitVec 8)} (h : (skipLiteral fmt).length = fmt.length) :
    skipLiteral fmt = fmt := by
  cases fmt with
  | nil => rfl
  | cons c fmt =>
    rw [skipLiteral] at h ⊢
    split_ifs at h ⊢ with hc
    · rfl
    · have := skipLiteral_length fmt
      rw [List.length_cons] at h
      omega

theorem flagsLoop_length (fmt : List (BitVec 8)) (flags : BitVec 8) :
    (flagsLoop fmt flags).1.length ≤ fmt.length := by
  induction fmt generalizing flags with
  | nil => exact le_rfl
  | cons c fmt ih =>
    rw [flagsLoop]
    cases flagOf c with
    | some flag => exact (ih _).trans (Nat.le_succ _)
    | none => exact le_rfl

/-- **A decoding consumes something**, unless the conversion is not one. -/
theorem formatDecode_length {fmt : List (BitVec 8)} {spec : DecodeSpec} (hne : deref fmt ≠ 0)
    (h : (formatDecode fmt spec).2.type ≠ .invalid) : (formatDecode fmt spec).1.length < fmt.length := by
  unfold formatDecode at h ⊢
  by_cases hwidth : spec.type = .width
  · rw [if_pos hwidth] at h ⊢
    exact decodePrecision_length h
  rw [if_neg hwidth] at h ⊢
  by_cases hprecision : spec.type = .precision
  · rw [if_pos hprecision] at h ⊢
    exact decodeQualifier_length h
  rw [if_neg hprecision] at h ⊢
  dsimp only at h ⊢
  have hlit := skipLiteral_length fmt
  have hflags := flagsLoop_length (skipLiteral fmt).tail 0
  have hskip := skipAtoi_length 0 (flagsLoop (skipLiteral fmt).tail 0).1
  split_ifs at h ⊢ with hread hdigit hstar
  · rcases hread with hread | hread
    · exact lt_of_le_of_ne hlit hread
    · -- the list begins with NUL only if something was skipped
      refine lt_of_le_of_ne hlit fun heq => hne ?_
      rwa [skipLiteral_eq heq] at hread
  all_goals
    push Not at hread
    have htail := length_tail_lt hread.2
  · exact (decodePrecision_length h).trans_le (by omega)
  · show (flagsLoop (skipLiteral fmt).tail 0).1.tail.length < _
    rw [List.length_tail]
    omega
  · exact (decodePrecision_length h).trans_le (by omega)

/-! ### `vsnprintf` -/

def INT_MAX : ℕ := 2147483647

end HardStack.Kasprintf.Format
