import PatchCode.Address
import PatchCode.ValueType

/-! Patches: what a program does to memory. A program is a list of patches, and patches nest: blocks
and repeat groups hold patches to be done in order, and a guard holds patches to be done if memory
compares as it says. -/

namespace PatchCode

/-- Bytes to be stored from an address on. -/
structure Write where
  address : Address
  bytes : List UInt8
  deriving Repr, DecidableEq

namespace Write

def size (w : Write) : Nat := w.bytes.length

/-- The address behind the last byte. -/
def stop (w : Write) : Address := w.address.advance w.size

/-- The next write starts where this one stops. -/
def followedBy (w next : Write) : Bool := w.stop == next.address

/-- The first `n` bytes and the rest. -/
def split (w : Write) (n : Nat) : Write × Write :=
  (⟨w.address, w.bytes.take n⟩, ⟨w.address.advance n, w.bytes.drop n⟩)

/-- Both writes as one, where the second starts at the stop of the first. -/
def join (w next : Write) : Write := ⟨w.address, w.bytes ++ next.bytes⟩

end Write

/-- A comparison of the memory at an address with a value. -/
structure Condition where
  comparison : Comparison
  type : ValueType
  address : Address
  value : UInt32
  deriving Repr, DecidableEq

/-- A change of the memory at an address by a value. -/
structure Adjustment where
  change : Change
  type : ValueType
  address : Address
  value : UInt32
  deriving Repr, DecidableEq

inductive Patch where
  | write (data : Write)
  | block (body : List Patch)
  /-- The unrolled body of a repeat. -/
  | group (body : List Patch)
  | guard (condition : Condition) (body : List Patch)
  | adjust (adjustment : Adjustment)
  deriving Repr

namespace Patch

mutual

/-- Some repeat group stands at or below this patch. -/
def hasGroup : Patch → Bool
  | group _ => true
  | block body | guard _ body => anyGroup body
  | write _ | adjust _ => false

def anyGroup : List Patch → Bool
  | [] => false
  | p :: ps => hasGroup p || anyGroup ps

end

mutual

/-- All writes at any depth, in program order. -/
def writes : Patch → List Write
  | write data => [data]
  | block body | group body | guard _ body => allWrites body
  | adjust _ => []

def allWrites : List Patch → List Write
  | [] => []
  | p :: ps => writes p ++ allWrites ps

end

mutual

/-- The number of patches at every depth, this one included. -/
def count : Patch → Nat
  | block body | group body | guard _ body => countAll body + 1
  | write _ | adjust _ => 1

def countAll : List Patch → Nat
  | [] => 0
  | p :: ps => count p + countAll ps

end

end Patch

end PatchCode
