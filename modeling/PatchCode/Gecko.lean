import PatchCode.Listing
import PatchCode.Record

/-! Gecko codes. A write outside guards is encoded as fills or as one bulk store, whichever takes
fewer lines. Guards compare whole halfwords or words, unsigned, at their natural boundaries; a byte
is compared as half of its halfword. Adjustments load a register, change it and store it back. -/

namespace PatchCode.Gecko

def limits : FillLimits := ⟨0x10000, 0x10000⟩

/-- How to write: the register that adjustments use, and whether bulk stores are allowed. -/
structure Style where
  register : Fin 16 := Fin.last 15
  bulk : Bool := true
  deriving Repr, DecidableEq

/-- Inside guards there are no bulk stores. -/
def Style.inBody (style : Style) : Style := { style with bulk := false }

/-- A fill stores one less than its count. -/
def ofWriteRecord : WriteRecord → Record
  | .byte address value count =>
    ⟨Record.codeWord 0x00 address, .ofNat ((count - 1) * 0x10000 + value.toNat)⟩
  | .half address value count =>
    ⟨Record.codeWord 0x02 address, .ofNat ((count - 1) * 0x10000 + value.toNat)⟩
  | .word address value => ⟨Record.codeWord 0x04 address, value⟩

def runLength (w : Write) : List Record := (w.plan limits).map ofWriteRecord

/-- Up to eight bytes as a record, zeros behind them. -/
def bulkRow (bytes : List UInt8) : Record :=
  ⟨.ofNat (Bytes.toNat ((bytes.take 4).rightpad 4 0)),
    .ofNat (Bytes.toNat ((bytes.drop 4).rightpad 4 0))⟩

/-- A header with the address and the number of bytes, then eight bytes a line. -/
def bulk (w : Write) : List Record :=
  ⟨Record.codeWord 0x06 w.address, .ofNat w.size⟩ :: (Bytes.chunks 8 w.bytes).map bulkRow

/-- Writes of up to this many bytes are never bulk stores. -/
def smallWrite : Nat := 4

/-- The shorter encoding, the fills if both have the same length. -/
def writeData (style : Style) (w : Write) : Listing Record :=
  let fills : Listing Record := { lines := runLength w, events := (w.plan limits).map .planned }
  if style.bulk && smallWrite < w.size then
    let stores := bulk w
    let compared := Listing.ofEvent (.compared w.address fills.lines.length stores.length)
    if stores.length < fills.lines.length then fills.withoutLines ++ compared ++ .ofLines stores
    else fills ++ compared
  else fills

/-- Closes a guard. -/
def terminator : Record := ⟨0xE2000001, 0x00000000⟩

def isAligned (condition : Condition) : Bool :=
  condition.type.size == 1 || condition.address.toNat % condition.type.size == 0

/-- The type of a comparison of words; there is none for masks. -/
def wordCode? : Comparison → Option UInt32
  | .equal => some 0x20
  | .unequal => some 0x22
  | .greaterThan => some 0x24
  | .lessThan => some 0x26
  | .mask => none

/-- The type of a comparison of halfwords. A mask asks whether the bits left to compare differ from
zero. -/
def halfCode : Comparison → UInt32
  | .equal => 0x28
  | .unequal | .mask => 0x2A
  | .greaterThan => 0x2C
  | .lessThan => 0x2E

/-- The value to compare a halfword with, and the bits to leave out of the comparison. -/
def halfOperand (condition : Condition) : UInt32 × UInt32 :=
  let value := condition.value &&& condition.type.mask
  let (value, ignored) : UInt32 × UInt32 :=
    if condition.type.size = 2 then (value, 0)
    else if condition.address % 2 = 0 then (value <<< 8, 0x00FF)
    else (value, 0xFF00)
  match condition.comparison with
  | .mask => (0, ~~~value &&& 0xFFFF)
  | _ => (value, ignored)

def halfHeader (condition : Condition) : Record :=
  let (compared, ignored) := halfOperand condition
  ⟨Record.codeWord (halfCode condition.comparison) (condition.address.inRecord &&& ~~~1),
    (ignored <<< 16) ||| compared⟩

/-- What there is to say about a comparison. -/
def remarks (condition : Condition) : Listing Record :=
  if condition.comparison.isOrdered && (condition.type.isSigned || condition.type.isFloat) then
    .ofWarning (.unsignedOrder condition.type condition.comparison condition.address)
  else {}

/-- The record that opens a guard, or why there is none. -/
def header (condition : Condition) : Except Refusal Record :=
  if !isAligned condition then
    .error (.misaligned condition.type condition.comparison condition.address)
  else if condition.type.size = 4 then
    match wordCode? condition.comparison with
    | some code =>
      .ok ⟨Record.codeWord code condition.address, condition.value &&& condition.type.mask⟩
    | none => .error (.noMaskCode condition.type condition.address)
  else .ok (halfHeader condition)

/-- Frames a body by its guard; an empty body leaves nothing to guard. -/
def frame (condition : Condition) (body : Listing Record) : Listing Record :=
  if body.lines.isEmpty then body
  else
    match header condition with
    | .ok record =>
      body.withoutLines ++ remarks condition ++ .ofLines (record :: body.lines ++ [terminator])
    | .error refusal => body.withoutLines ++ .ofRefusal refusal

/-- The size field of a load or store. -/
def sizeCode : ValueType → UInt32
  | .u8 | .s8 => 0
  | .u16 | .s16 => 1
  | .u32 | .s32 | .f32 => 2

/-- The operation on the register and its operand. -/
def operation (a : Adjustment) : UInt32 × UInt32 :=
  match a.change, a.type.isFloat with
  | .add, true => (9, a.value)
  | .add, false => (0, a.value &&& a.type.mask)
  | .bitSet, _ => (2, a.value &&& a.type.mask)
  | .bitUnset, _ => (3, ~~~a.value &&& a.type.mask)

def registerField (register : Fin 16) : UInt32 := .ofNat register.val

/-- A load from or store to an address that, like that of every other record, is relative to the
base. -/
def transfer (code : UInt32) (register : Fin 16) (a : Adjustment) : Record :=
  ⟨(code <<< 24) ||| (sizeCode a.type <<< 20) ||| 0x10000 ||| registerField register,
    a.address.inRecord⟩

/-- Changes the register. -/
def operate (register : Fin 16) (a : Adjustment) : Record :=
  ⟨((0x86 : UInt32) <<< 24) ||| ((operation a).1 <<< 20) ||| registerField register,
    (operation a).2⟩

def adjust (register : Fin 16) (a : Adjustment) : Listing Record :=
  .ofLines [transfer 0x82 register a, operate register a, transfer 0x84 register a]

mutual

def write (style : Style) : Patch → Listing Record
  | .write data => writeData style data
  | .block body | .group body => writeAll style body
  | .guard condition body => frame condition (writeAll style.inBody body)
  | .adjust adjustment => adjust style.register adjustment

def writeAll (style : Style) : List Patch → Listing Record
  | [] => {}
  | p :: ps => write style p ++ writeAll style ps

end

end PatchCode.Gecko
