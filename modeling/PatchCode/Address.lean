/-! Addresses. They have 32 bits and wrap around; code records keep the low 25 bits. -/

namespace PatchCode

abbrev Address := UInt32

namespace Address

/-- The address some bytes further on. -/
def advance (a : Address) (bytes : Nat) : Address := a + .ofNat bytes

/-- The next multiple of `alignment`, a power of two, from `a` on. -/
def alignUp (a : Address) (alignment : UInt32) : Address :=
  (a + (alignment - 1)) &&& ~~~(alignment - 1)

/-- Memory as codes see it has `2 ^ 25` bytes. -/
def recordMask : UInt32 := 0x01FFFFFF

/-- The part of an address that a code record holds. -/
def inRecord (a : Address) : Address := a &&& recordMask

/-- The address read as a two's complement number. -/
def signed (a : Address) : Int := a.toInt32.toInt

end Address

end PatchCode
