import PatchCode.Listing
import PatchCode.Record

/-! Action Replay codes. Fills carry their full count, or zero for a single store. A guard's type
says how many lines it covers: one, two, or all up to a terminator. Ordered comparisons come signed
and unsigned, and floats use the signed ones; there are no codes that set or clear bits, so those
become plain stores. -/

namespace PatchCode.ActionReplay

def limits : FillLimits := ⟨0xFFFFFF, 0xFFFF⟩

/-- The count field of a fill. -/
def countField (count : Nat) : Nat := if count = 1 then 0 else count

def ofWriteRecord : WriteRecord → Record
  | .byte address value count =>
    ⟨Record.codeWord 0x00 address, .ofNat (countField count * 0x100 + value.toNat)⟩
  | .half address value count =>
    ⟨Record.codeWord 0x02 address, .ofNat (countField count * 0x10000 + value.toNat)⟩
  | .word address value => ⟨Record.codeWord 0x04 address, value⟩

def writeData (w : Write) : Listing Record :=
  let records := w.plan limits
  { lines := records.map ofWriteRecord, events := records.map .planned }

/-- Closes a guard over all lines. -/
def terminator : Record := ⟨0x00000000, 0x40000000⟩

def comparisonCode (comparison : Comparison) (type : ValueType) : UInt32 :=
  match comparison, type.isSigned || type.isFloat with
  | .equal, _ => 0x08
  | .unequal, _ => 0x10
  | .lessThan, true => 0x18
  | .greaterThan, true => 0x20
  | .lessThan, false => 0x28
  | .greaterThan, false => 0x30
  | .mask, _ => 0x38

/-- The size field of an addition. -/
def sizeCode : ValueType → UInt32
  | .u8 | .s8 => 0
  | .u16 | .s16 => 2
  | .u32 | .s32 => 4
  | .f32 => 6

/-- The size field of a comparison, where floats count as words. -/
def comparedSizeCode : ValueType → UInt32
  | .f32 => 4
  | type => sizeCode type

/-- How many of the following lines a guard covers. -/
inductive Extent where
  | one | two | all
  deriving Repr, DecidableEq

namespace Extent

def ofLineCount : Nat → Extent
  | 1 => one
  | 2 => two
  | _ => all

def code : Extent → UInt32
  | one => 0x00
  | two => 0x40
  | all => 0x80

/-- The lines behind a body that this extent needs. -/
def closing : Extent → List Record
  | all => [terminator]
  | _ => []

end Extent

def header (condition : Condition) (extent : Extent) : Record :=
  ⟨Record.codeWord (comparisonCode condition.comparison condition.type |||
      comparedSizeCode condition.type ||| extent.code) condition.address,
    condition.value &&& condition.type.mask⟩

/-- What there is to say about a comparison. -/
def remarks (condition : Condition) : Listing Record :=
  if condition.type.isFloat && condition.comparison.isOrdered then
    .ofWarning (.floatOrder condition.comparison condition.address)
  else {}

/-- Frames a body by its guard; an empty body leaves nothing to guard. -/
def frame (condition : Condition) (body : Listing Record) : Listing Record :=
  if body.lines.isEmpty then body ++ .ofEvent (.emptyBody condition.address)
  else
    let extent := Extent.ofLineCount body.lines.length
    body.withoutLines ++ remarks condition ++
      .ofLines (header condition extent :: body.lines ++ extent.closing)

/-- One plain store of a value at the width of its type. -/
def store (type : ValueType) (address : Address) (value : UInt32) : Record :=
  ofWriteRecord <|
    match type.size with
    | 1 => .byte address value.toUInt8 1
    | 2 => .half address value.toUInt16 1
    | _ => .word address value

def adjust (a : Adjustment) : Listing Record :=
  match a.change with
  | .add =>
    .ofLines [⟨Record.codeWord (0x80 ||| sizeCode a.type) a.address, a.value &&& a.type.mask⟩]
  | .bitSet =>
    .ofWarning (.fullWidth a.type a.change a.address) ++
      .ofLines [store a.type a.address (a.value &&& a.type.mask)]
  | .bitUnset =>
    .ofWarning (.fullWidth a.type a.change a.address) ++
      .ofLines [store a.type a.address (~~~a.value &&& a.type.mask)]

mutual

def write : Patch → Listing Record
  | .write data => writeData data
  | .block body | .group body => writeAll body
  | .guard condition body => frame condition (writeAll body)
  | .adjust adjustment => adjust adjustment

def writeAll : List Patch → Listing Record
  | [] => {}
  | p :: ps => write p ++ writeAll ps

end

end PatchCode.ActionReplay
