import HardStack.Kasprintf.Format
import HardStack.Kasprintf.Number

/-! # Truncation in `vsnprintf`

Every conversion emits a text that depends neither on the end of the buffer nor on what is in it. The
text of `%s` that is padded in front is emitted first and moved then; what that leaves is the padded text
(`widenString_right`), whatever part of it is cut off. -/

namespace HardStack.Kasprintf.Vsnprintf

open HardStack.Kasprintf.Model HardStack.Kasprintf.Format HardStack.Kasprintf.Number

/-- The kinds of the arguments. -/
inductive Kind
  | int
  | long
  | str
  deriving DecidableEq

def kindOf : Arg → Kind
  | .int _ => .int
  | .long _ => .long
  | .str _ => .str

/-- The types whose argument is a number. -/
def IsInteger : FormatType → Bool
  | .none | .width | .precision | .char | .str | .ptr | .percentChar | .invalid => false
  | _ => true

/-- The arguments of a type; `%p` has none that would do. -/
def reads : FormatType → Option (List Kind)
  | .none | .percentChar | .invalid => some []
  | .str => some [.str]
  | .ptr => none
  | .longLong | .ulong | .long | .sizeT | .ptrdiff => some [.long]
  | _ => some [.int]

/-- One type, or two integer types that read the same. -/
def Alike (t t' : FormatType) : Prop := t = t' ∨ IsInteger t ∧ IsInteger t' ∧ reads t = reads t'

theorem Alike.refl (t : FormatType) : Alike t t := Or.inl rfl

/-- What a format reads, conversion by conversion. -/
def kinds (fmt : List (BitVec 8)) (spec : DecodeSpec) : Option (List Kind) :=
  if deref fmt = 0 then some []
  else if (formatDecode fmt spec).2.type = .invalid then some []
  else do
    let ks ← reads (formatDecode fmt spec).2.type
    let ms ← kinds (formatDecode fmt spec).1 (formatDecode fmt spec).2
    some (ks ++ ms)
termination_by fmt.length
decreasing_by exact formatDecode_length ‹_› ‹_›

/-- The arguments begin with those that the format reads, and there is no `%p`. -/
def Accepts (fmt : List (BitVec 8)) (args : List Arg) : Prop :=
  ∃ ks rest, kinds fmt DecodeSpec.zero = some ks ∧ args.map kindOf = ks ++ rest

end HardStack.Kasprintf.Vsnprintf
