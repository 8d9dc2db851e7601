import PatchCode.Fault
import PatchCode.Text.Radix

/-! Integer literals: decimal, `0x` hexadecimal or `0b` binary with an optional sign. The magnitude
has at most 64 bits and the value is its two's complement reading. -/

namespace PatchCode.Literal

/-- The sign of a literal (true for minus) and what follows it. -/
def splitSign : List Char → Bool × List Char
  | '-' :: cs => (true, cs)
  | '+' :: cs => (false, cs)
  | cs => (false, cs)

/-- The magnitude before the 64-bit limit. The letters of the literal may have either case. -/
def magnitude? (cs : List Char) : Option Nat :=
  match cs.map Char.toLower with
  | '0' :: 'x' :: ds => Text.ofUnsigned? 16 ds
  | '0' :: 'b' :: ds => Text.ofUnsigned? 2 ds
  | ds => Text.ofDigits? 10 ds

/-- The 64-bit pattern of a number, read as a signed value. -/
def signed64 (n : Int) : Int := n.bmod 0x10000000000000000

def integer? (cs : List Char) : Option Int :=
  let (negative, body) := splitSign cs
  match magnitude? body with
  | some n =>
    if n < 0x10000000000000000 then some (signed64 (if negative then -(n : Int) else n)) else none
  | none => none

def integer (token : String) : Except Fault Int :=
  match integer? token.toList with
  | some n => .ok n
  | none => .error (.literal token)

end PatchCode.Literal
