import PatchCode.Patch.Basic

/-! Splitting writes off their natural boundaries: afterwards a write of two or more bytes starts at
an even address and one of four or more bytes at a multiple of four. -/

namespace PatchCode

namespace Write

/-- Splits off two bytes if four or more start off a multiple of four. -/
def toWordBoundary (w : Write) : List Write :=
  if w.address % 4 ≠ 0 ∧ 4 ≤ w.size then [(w.split 2).1, (w.split 2).2] else [w]

/-- Splits off one byte if two or more start at an odd address, then goes on to the word
boundary. -/
def realign (w : Write) : List Write :=
  if w.address % 2 ≠ 0 ∧ 2 ≤ w.size then (w.split 1).1 :: (w.split 1).2.toWordBoundary
  else w.toWordBoundary

end Write

namespace Patch

mutual

/-- The patches that take the place of this one. -/
def realign : Patch → List Patch
  | write data => data.realign.map write
  | block body => [block (realignAll body)]
  | group body => [group (realignAll body)]
  | guard condition body => [guard condition (realignAll body)]
  | adjust adjustment => [adjust adjustment]

def realignAll : List Patch → List Patch
  | [] => []
  | p :: ps => realign p ++ realignAll ps

end

end Patch

end PatchCode
