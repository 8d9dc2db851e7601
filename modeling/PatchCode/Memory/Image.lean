import PatchCode.Patch.Basic
import Std.Data.ExtTreeMap

/-! Memory images: which bytes have been stored where, in a memory of `2 ^ 25` bytes. Two images are
equal if they hold the same byte, or none, at every address. -/

namespace PatchCode

abbrev Image := Std.ExtTreeMap UInt32 UInt8

namespace Image

/-- Stores bytes from an address on, wrapping around at the end of memory; later stores win. -/
def store : Image → Address → List UInt8 → Image
  | image, _, [] => image
  | image, a, b :: bytes => store (image.insert a.inRecord b) (a + 1) bytes

def ofWrites (writes : List Write) : Image :=
  writes.foldl (fun image w => image.store w.address w.bytes) ∅

/-- Puts a byte in front of runs that lie behind it. -/
def consRun (stored : Address × UInt8) : List (Address × List UInt8) → List (Address × List UInt8)
  | (start, bytes) :: runs =>
    if stored.1 + 1 = start then (stored.1, stored.2 :: bytes) :: runs
    else (stored.1, [stored.2]) :: (start, bytes) :: runs
  | [] => [(stored.1, [stored.2])]

/-- The longest stretches of stored bytes, by ascending address. -/
def runs (image : Image) : List (Address × List UInt8) := image.toList.foldr consRun []

end Image

end PatchCode
