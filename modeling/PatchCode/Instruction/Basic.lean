/-! PowerPC instructions by field layout. Every alias is resolved here to the instruction that it
stands for, and `word` lays the fields side by side, most significant first. -/

namespace PatchCode

/-- An instruction of one of seven layouts. -/
inductive Instruction where
  /-- Two registers and a 16-bit immediate. -/
  | immediate (opcode : BitVec 6) (d a : BitVec 5) (value : BitVec 16)
  /-- Three registers and an extended opcode. -/
  | registers (d a b : BitVec 5) (extended : BitVec 10)
  /-- Rotate left and keep the bits from `first` to `last`. -/
  | rotate (s a shift first last : BitVec 5)
  /-- Move between a register and a special register. -/
  | special (d : BitVec 5) (number extended : BitVec 10)
  /-- Jump to a displacement counted in words. -/
  | jump (displacement : BitVec 24) (link : Bool)
  /-- Jump to a displacement if a condition bit is as the options say. -/
  | branch (options condition : BitVec 5) (displacement : BitVec 14)
  /-- Jump to the address in the link or count register. -/
  | jumpRegister (extended : BitVec 10) (link : Bool)
  deriving Repr, DecidableEq

namespace Instruction

/-- The number of a special register is stored with its two halves swapped. -/
def swapHalves (number : BitVec 10) : BitVec 10 := number.extractLsb' 0 5 ++ number.extractLsb' 5 5

def bits : Instruction → BitVec 32
  | immediate opcode d a value => opcode ++ d ++ a ++ value
  | registers d a b extended => 31#6 ++ d ++ a ++ b ++ extended ++ 0#1
  | rotate s a shift first last => 21#6 ++ s ++ a ++ shift ++ first ++ last ++ 0#1
  | special d number extended => 31#6 ++ d ++ swapHalves number ++ extended ++ 0#1
  | jump displacement link => 18#6 ++ displacement ++ 0#1 ++ BitVec.ofBool link
  | branch options condition displacement => 16#6 ++ options ++ condition ++ displacement ++ 0#2
  | jumpRegister extended link => 19#6 ++ 20#5 ++ 0#5 ++ 0#5 ++ extended ++ BitVec.ofBool link

def word (i : Instruction) : UInt32 := .ofBitVec i.bits

/-- Does nothing: an immediate `or` of register zero with zero. -/
def nop : Instruction := immediate 24 0 0 0

end Instruction

end PatchCode
