import PatchCode.Literal.Integer

/-! Operands of instructions: registers and literals. Register numbers are taken modulo the number
of registers of their kind. -/

namespace PatchCode.Operand

/-- A register name: the letters of its kind in either case, then a number of at most 32 bits. -/
def register? (letters : String) (token : String) : Option Nat :=
  match letters.toList.isPrefixOf? (token.toList.map Char.toLower) with
  | some digits => (Text.ofDigits? 10 digits).filter (· < 0x100000000)
  | none => none

def register (letters : String) (token : String) : Except Fault (BitVec 5) :=
  match register? letters token with
  | some n => .ok (.ofNat 5 n)
  | none => .error (.operand token)

/-- A general register; the stack and table-of-contents pointers have names of their own. -/
def general (token : String) : Except Fault (BitVec 5) :=
  match String.ofList (token.toList.map Char.toLower) with
  | "sp" => .ok 1
  | "rtoc" => .ok 2
  | _ => register "r" token

def float (token : String) : Except Fault (BitVec 5) := register "f" token

/-- One of the eight condition fields. -/
def conditionField (token : String) : Except Fault (BitVec 3) :=
  (register "cr" token).map (·.setWidth 3)

/-- The low `width` bits of an integer literal. -/
def literal (width : Nat) (token : String) : Except Fault (BitVec width) :=
  (Literal.integer token).map (BitVec.ofInt width)

end PatchCode.Operand
