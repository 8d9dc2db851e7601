/-! The operand types of patch directives and the comparisons and changes that they name. -/

namespace PatchCode

inductive ValueType where
  | u8 | u16 | u32 | s8 | s16 | s32 | f32
  deriving Repr, DecidableEq

namespace ValueType

/-- In the order in which a directive that runs type and verb together is tried. -/
def all : List ValueType := [u8, u16, u32, s8, s16, s32, f32]

/-- Width in bytes. -/
def size : ValueType → Nat
  | u8 | s8 => 1
  | u16 | s16 => 2
  | u32 | s32 | f32 => 4

def isSigned : ValueType → Bool
  | s8 | s16 | s32 => true
  | _ => false

def isFloat : ValueType → Bool
  | f32 => true
  | _ => false

/-- The bits that a value of this type can have. -/
def mask : ValueType → UInt32
  | u8 | s8 => 0xFF
  | u16 | s16 => 0xFFFF
  | u32 | s32 | f32 => 0xFFFFFFFF

def name : ValueType → String
  | u8 => "u8"
  | u16 => "u16"
  | u32 => "u32"
  | s8 => "s8"
  | s16 => "s16"
  | s32 => "s32"
  | f32 => "f32"

def ofName? (s : String) : Option ValueType := all.find? (·.name == s)

end ValueType

/-- How a guard compares memory with its value. -/
inductive Comparison where
  | equal | unequal | lessThan | greaterThan
  /-- Some bit of the value is set in memory. -/
  | mask
  deriving Repr, DecidableEq

namespace Comparison

def all : List Comparison := [equal, unequal, lessThan, greaterThan, mask]

def name : Comparison → String
  | equal => "equal"
  | unequal => "unequal"
  | lessThan => "lessthan"
  | greaterThan => "greaterthan"
  | mask => "mask"

def ofName? (s : String) : Option Comparison := all.find? (·.name == s)

def isOrdered : Comparison → Bool
  | lessThan | greaterThan => true
  | _ => false

end Comparison

/-- How an adjustment combines its value into memory. -/
inductive Change where
  | add | bitSet | bitUnset
  deriving Repr, DecidableEq

namespace Change

def all : List Change := [add, bitSet, bitUnset]

def name : Change → String
  | add => "add"
  | bitSet => "bitset"
  | bitUnset => "bitunset"

def ofName? (s : String) : Option Change := all.find? (·.name == s)

end Change

end PatchCode
