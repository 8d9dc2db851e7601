import PatchCode.Fault
import PatchCode.Literal.Binary
import PatchCode.Literal.Integer

/-! Decimal literals: a sign, then digits with an optional point and an optional exponent of ten, or
the words for infinity and for no number. They are rounded once to a double; a single is rounded
from that. -/

namespace PatchCode.Literal

/-- What a decimal literal denotes, the sign apart. -/
inductive Decimal where
  | finite (digits : Nat) (exponent : Int)
  | infinite
  | undefined
  deriving Repr, DecidableEq

namespace Decimal

/-- The exponent part: empty, or `e` with a sign and at least one digit. -/
def exponent? : List Char → Option Int
  | [] => some 0
  | c :: cs =>
    if c.toLower = 'e' then
      let (negative, ds) := splitSign cs
      (Text.ofDigits? 10 ds).map fun n => if negative then -(n : Int) else n
    else none

/-- Digits around an optional point, at least one of them, then the exponent. -/
def number? (cs : List Char) : Option Decimal :=
  let whole := cs.takeWhile Char.isDigit
  let rest := cs.dropWhile Char.isDigit
  let (part, rest) :=
    match rest with
    | '.' :: tail => (tail.takeWhile Char.isDigit, tail.dropWhile Char.isDigit)
    | _ => ([], rest)
  match Text.ofDigits? 10 (whole ++ part), exponent? rest with
  | some digits, some e => some (.finite digits (e - part.length))
  | _, _ => none

def unsigned? (cs : List Char) : Option Decimal :=
  match String.ofList (cs.map Char.toLower) with
  | "inf" | "infinity" => some .infinite
  | "nan" => some .undefined
  | _ => number? cs

/-- A nonzero `digits * 10 ^ exponent` with an exponent from here on exceeds every double. -/
def tooLarge : Int := 400

/-- The double nearest to `digits * 10 ^ exponent`. Below `10 ^ -tooLarge` that is zero; the bound
on the number of digits is by their bit length. -/
def round (digits : Nat) (exponent : Int) : Nat :=
  if digits = 0 then 0
  else if tooLarge ≤ exponent then BinaryFormat.double.infinity
  else if exponent + digits.log2 + 1 ≤ -tooLarge then 0
  else BinaryFormat.double.round (digits * Nat.pow 10 exponent.toNat) (Nat.pow 10 (-exponent).toNat)

def magnitude : Decimal → Nat
  | finite digits exponent => round digits exponent
  | infinite => BinaryFormat.double.infinity
  | undefined => BinaryFormat.double.quietNaN

end Decimal

/-- The bits of the double that a literal stands for. -/
def double? (cs : List Char) : Option UInt64 :=
  let (negative, body) := splitSign cs
  (Decimal.unsigned? body).map fun d =>
    .ofNat ((if negative then BinaryFormat.double.signBit else 0) + d.magnitude)

def double (token : String) : Except Fault UInt64 :=
  match double? token.toList with
  | some bits => .ok bits
  | none => .error (.literal token)

/-- The bits of the single nearest to the double with the given bits. -/
def singleOfDouble (bits : UInt64) : UInt32 :=
  .ofNat (BinaryFormat.double.convert .single bits.toNat)

def single (token : String) : Except Fault UInt32 :=
  (double token).map singleOfDouble

end PatchCode.Literal
