import PatchCode.Address
import PatchCode.Instruction.Basic
import PatchCode.Instruction.Operand

/-! The mnemonics and how each reads its operands. -/

namespace PatchCode

/-- The operands that a mnemonic takes and where they go. -/
inductive Form where
  /-- None. -/
  | bare (instruction : Instruction)
  /-- `rD, rA, value` -/
  | arithmetic (opcode : BitVec 6)
  /-- `rD, value`, with register zero as the base. -/
  | load (opcode : BitVec 6)
  /-- `rD, rA, value`, adding the negated value. -/
  | subtractImmediate
  /-- `rA, rS, value` -/
  | logical (opcode : BitVec 6)
  /-- `[crN,] rA, value` -/
  | compareImmediate (opcode : BitVec 6)
  /-- `[crN,] rA, rB` -/
  | compare (extended : BitVec 10)
  /-- `rD, offset(rA)` -/
  | memory (opcode : BitVec 6)
  /-- `fD, offset(rA)` -/
  | floatMemory (opcode : BitVec 6)
  /-- `rD, rA, rB` -/
  | arithmeticRegisters (extended : BitVec 10)
  /-- `rD, rA, rB`, subtracting the other way round. -/
  | subtract
  /-- `rD, rA` -/
  | negate
  /-- `rA, rS, rB` -/
  | logicalRegisters (extended : BitVec 10)
  /-- `rA, rS`, an `or` of the source with itself. -/
  | move
  /-- `rA, rS, shift, first, last` -/
  | rotate
  /-- `rA, rS, n` -/
  | shiftLeft
  /-- `rA, rS, n` -/
  | shiftRight
  /-- `rD` -/
  | special (number extended : BitVec 10)
  /-- `target` -/
  | jump (link : Bool)
  /-- `[crN,] target` -/
  | branch (options : BitVec 5) (bit : BitVec 2)
  deriving Repr, DecidableEq

namespace Form

/-- How many operands a form needs, an optional condition field apart. -/
def operandCount : Form → Nat
  | bare _ => 0
  | special .. | jump _ | branch .. => 1
  | load _ | compareImmediate _ | compare _ | negate | move => 2
  | arithmetic _ | subtractImmediate | logical _ | memory _ | floatMemory _ | arithmeticRegisters _
  | subtract | logicalRegisters _ | shiftLeft | shiftRight => 3
  | rotate => 5

def linkRegister : BitVec 10 := 8

def countRegister : BitVec 10 := 9

/-- Branch if the condition bit is set. -/
def ifSet : BitVec 5 := 12

/-- Branch if the condition bit is clear. -/
def ifClear : BitVec 5 := 4

def ofMnemonic? : String → Option Form
  | "nop" => some (bare .nop)
  | "blr" => some (bare (.jumpRegister 16 false))
  | "blrl" => some (bare (.jumpRegister 16 true))
  | "bctr" => some (bare (.jumpRegister 528 false))
  | "bctrl" => some (bare (.jumpRegister 528 true))
  | "addi" => some (arithmetic 14)
  | "addis" => some (arithmetic 15)
  | "mulli" => some (arithmetic 7)
  | "li" => some (load 14)
  | "lis" => some (load 15)
  | "subi" => some subtractImmediate
  | "ori" => some (logical 24)
  | "oris" => some (logical 25)
  | "xori" => some (logical 26)
  | "xoris" => some (logical 27)
  | "andi." => some (logical 28)
  | "andis." => some (logical 29)
  | "cmpwi" => some (compareImmediate 11)
  | "cmplwi" => some (compareImmediate 10)
  | "cmpw" => some (compare 0)
  | "cmplw" => some (compare 32)
  | "lwz" => some (memory 32)
  | "lwzu" => some (memory 33)
  | "lbz" => some (memory 34)
  | "lbzu" => some (memory 35)
  | "stw" => some (memory 36)
  | "stwu" => some (memory 37)
  | "stb" => some (memory 38)
  | "stbu" => some (memory 39)
  | "lhz" => some (memory 40)
  | "lha" => some (memory 42)
  | "sth" => some (memory 44)
  | "lmw" => some (memory 46)
  | "stmw" => some (memory 47)
  | "lfs" => some (floatMemory 48)
  | "lfd" => some (floatMemory 50)
  | "stfs" => some (floatMemory 52)
  | "stfd" => some (floatMemory 54)
  | "add" => some (arithmeticRegisters 266)
  | "subf" => some (arithmeticRegisters 40)
  | "mullw" => some (arithmeticRegisters 235)
  | "divw" => some (arithmeticRegisters 491)
  | "divwu" => some (arithmeticRegisters 459)
  | "sub" => some subtract
  | "neg" => some negate
  | "and" => some (logicalRegisters 28)
  | "or" => some (logicalRegisters 444)
  | "xor" => some (logicalRegisters 316)
  | "nor" => some (logicalRegisters 124)
  | "slw" => some (logicalRegisters 24)
  | "srw" => some (logicalRegisters 536)
  | "sraw" => some (logicalRegisters 792)
  | "mr" => some move
  | "rlwinm" => some rotate
  | "slwi" => some shiftLeft
  | "srwi" => some shiftRight
  | "mflr" => some (special linkRegister 339)
  | "mfctr" => some (special countRegister 339)
  | "mtlr" => some (special linkRegister 467)
  | "mtctr" => some (special countRegister 467)
  | "b" => some (jump false)
  | "bl" => some (jump true)
  | "beq" => some (branch ifSet 2)
  | "bne" => some (branch ifClear 2)
  | "blt" => some (branch ifSet 0)
  | "bge" => some (branch ifClear 0)
  | "bgt" => some (branch ifSet 1)
  | "ble" => some (branch ifClear 1)
  | _ => none

/-- Compare a register with a value in a condition field. -/
def compareValue (opcode : BitVec 6) (field : BitVec 3) (a value : String) :
    Except Fault Instruction := do
  return .immediate opcode (field ++ 0#2) (← Operand.general a) (← Operand.literal 16 value)

/-- Compare two registers in a condition field. -/
def compareRegisters (extended : BitVec 10) (field : BitVec 3) (a b : String) :
    Except Fault Instruction := do
  return .registers (field ++ 0#2) (← Operand.general a) (← Operand.general b) extended

/-- How far a target lies from an address, modulo `2 ^ 32`. -/
def displacement (target : String) (address : Address) : Except Fault (BitVec 32) :=
  (Operand.literal 32 target).map (· - address.toBitVec)

/-- Branch on a bit of a condition field. -/
def branchOn (options : BitVec 5) (field : BitVec 3) (bit : BitVec 2) (target : String)
    (address : Address) : Except Fault Instruction := do
  return .branch options (field ++ bit) ((← displacement target address).extractLsb' 2 14)

/-- Reads the operands in the order in which a fault among them is reported. -/
def read (mnemonic : String) (form : Form) (operands : List String) (address : Address) :
    Except Fault Instruction :=
  match form, operands with
  | bare instruction, [] => .ok instruction
  | arithmetic opcode, [d, a, value] => do
    return .immediate opcode (← Operand.general d) (← Operand.general a)
      (← Operand.literal 16 value)
  | load opcode, [d, value] => do
    return .immediate opcode (← Operand.general d) 0 (← Operand.literal 16 value)
  | subtractImmediate, [d, a, value] => do
    let value ← Operand.literal 16 value
    return .immediate 14 (← Operand.general d) (← Operand.general a) (-value)
  | logical opcode, [a, s, value] => do
    return .immediate opcode (← Operand.general s) (← Operand.general a)
      (← Operand.literal 16 value)
  | compareImmediate opcode, [a, value] => compareValue opcode 0 a value
  | compareImmediate opcode, [field, a, value] => do
    compareValue opcode (← Operand.conditionField field) a value
  | compare extended, [a, b] => compareRegisters extended 0 a b
  | compare extended, [field, a, b] => do
    compareRegisters extended (← Operand.conditionField field) a b
  | memory opcode, [d, offset, a] => do
    return .immediate opcode (← Operand.general d) (← Operand.general a)
      (← Operand.literal 16 offset)
  | floatMemory opcode, [d, offset, a] => do
    return .immediate opcode (← Operand.float d) (← Operand.general a) (← Operand.literal 16 offset)
  | arithmeticRegisters extended, [d, a, b] => do
    return .registers (← Operand.general d) (← Operand.general a) (← Operand.general b) extended
  | subtract, [d, a, b] => do
    return .registers (← Operand.general d) (← Operand.general b) (← Operand.general a) 40
  | negate, [d, a] => do
    return .registers (← Operand.general d) (← Operand.general a) 0 104
  | logicalRegisters extended, [a, s, b] => do
    return .registers (← Operand.general s) (← Operand.general a) (← Operand.general b) extended
  | move, [a, s] => do
    let s ← Operand.general s
    return .registers s (← Operand.general a) s 444
  | rotate, [a, s, shift, first, last] => do
    let a ← Operand.general a
    let s ← Operand.general s
    return .rotate s a (← Operand.literal 5 shift) (← Operand.literal 5 first)
      (← Operand.literal 5 last)
  | shiftLeft, [a, s, n] => do
    let n ← Operand.literal 5 n
    let a ← Operand.general a
    let s ← Operand.general s
    return .rotate s a n 0 (31 - n)
  | shiftRight, [a, s, n] => do
    let n ← Operand.literal 5 n
    let a ← Operand.general a
    let s ← Operand.general s
    return .rotate s a (-n) n 31
  | special number extended, [d] => do
    return .special (← Operand.general d) number extended
  | jump link, [target] => do
    return .jump ((← displacement target address).extractLsb' 2 24) link
  | branch options bit, [target] => branchOn options 0 bit target address
  | branch options bit, [field, target] => do
    branchOn options (← Operand.conditionField field) bit target address
  | form, operands =>
    .error
      (.operand (mnemonic ++ " expects " ++ toString form.operandCount ++ " operand(s), found " ++
      toString operands.length))

end Form

/-- The instruction on a source line. Mnemonics may have either case. -/
def Instruction.ofTokens (mnemonic : String) (operands : List String) (address : Address) :
    Except Fault Instruction :=
  match Form.ofMnemonic? mnemonic.toLower with
  | some form => form.read mnemonic.toLower operands address
  | none => .error (.unsupported mnemonic)

end PatchCode
