/-! Unsigned numbers in positional notation: reading digits in a radix up to 36, and writing
upper-case hexadecimal with a least width. -/

namespace PatchCode.Text

/-- The value of a digit below `radix`; letters of either case stand for ten and above. -/
def digit? (radix : Nat) (c : Char) : Option Nat :=
  let value :=
    if '0' ≤ c ∧ c ≤ '9' then some (c.toNat - '0'.toNat)
    else if 'a' ≤ c ∧ c ≤ 'z' then some (c.toNat - 'a'.toNat + 10)
    else if 'A' ≤ c ∧ c ≤ 'Z' then some (c.toNat - 'A'.toNat + 10)
    else none
  value.filter (· < radix)

/-- One or more digits, most significant first. -/
def ofDigits? (radix : Nat) (cs : List Char) : Option Nat :=
  if cs.isEmpty then none
  else cs.foldlM (fun n c => (digit? radix c).map (n * radix + ·)) 0

/-- Digits that may have one plus sign in front of them. -/
def ofUnsigned? (radix : Nat) : List Char → Option Nat
  | '+' :: cs => ofDigits? radix cs
  | cs => ofDigits? radix cs

def hexDigits (n : Nat) : List Char := (Nat.toDigits 16 n).map Char.toUpper

/-- At least `width` upper-case hexadecimal digits. -/
def hex (width n : Nat) : String := .ofList ((hexDigits n).leftpad width '0')

def hexByte (b : UInt8) : String := hex 2 b.toNat

/-- Two digits a byte, nothing between them. -/
def hexBytes (bytes : List UInt8) : String := String.join (bytes.map hexByte)

end PatchCode.Text
