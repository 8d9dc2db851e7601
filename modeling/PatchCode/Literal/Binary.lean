/-! Binary floating-point encodings. A magnitude is given as a fraction of naturals and rounded to
the nearest encodable value, a tie to the even one, by exact arithmetic; too large a magnitude gives
infinity. -/

namespace PatchCode.Literal

/-- Widths in bits of the exponent field and of the stored fraction. -/
structure BinaryFormat where
  exponentBits : Nat
  fractionBits : Nat
  deriving Repr, DecidableEq

namespace BinaryFormat

def single : BinaryFormat := ⟨8, 23⟩

def double : BinaryFormat := ⟨11, 52⟩

def signBit (f : BinaryFormat) : Nat := 1 <<< (f.exponentBits + f.fractionBits)

def infinity (f : BinaryFormat) : Nat := (1 <<< f.exponentBits - 1) <<< f.fractionBits

def quietNaN (f : BinaryFormat) : Nat := f.infinity + 1 <<< (f.fractionBits - 1)

/-- The least positive value is `2 ^ -depth`, and every finite value is a multiple of it. -/
def depth (f : BinaryFormat) : Nat := 1 <<< (f.exponentBits - 1) - 2 + f.fractionBits

end BinaryFormat

/-- The integer nearest to `n / d`, a tie going to the even one. -/
def roundDiv (n d : Nat) : Nat :=
  if 2 * (n % d) < d ∨ (2 * (n % d) = d ∧ n / d % 2 = 0) then n / d else n / d + 1

/-- The encoding nearest to `n / d`. The shift drops what lies below the precision; shifting by one
more bit steps the exponent field by one, and a carry out of the fraction does the same. -/
def BinaryFormat.round (f : BinaryFormat) (n d : Nat) : Nat :=
  let units := n <<< f.depth
  let shift := (units / d).log2 - f.fractionBits
  min f.infinity (shift <<< f.fractionBits + roundDiv units (d <<< shift))

/-- A finite encoding as a multiple of the least positive value. -/
def BinaryFormat.units (f : BinaryFormat) (magnitude : Nat) : Nat :=
  let fraction := magnitude % 1 <<< f.fractionBits
  match magnitude >>> f.fractionBits with
  | 0 => fraction
  | e + 1 => (1 <<< f.fractionBits + fraction) <<< e

/-- Rounds an encoding with sign from one format to another. -/
def BinaryFormat.convert (f g : BinaryFormat) (bits : Nat) : Nat :=
  let magnitude := bits % f.signBit
  let rounded :=
    if magnitude < f.infinity then g.round (f.units magnitude) (1 <<< f.depth)
    else if magnitude = f.infinity then g.infinity
    else g.quietNaN
  bits / f.signBit * g.signBit + rounded

end PatchCode.Literal
