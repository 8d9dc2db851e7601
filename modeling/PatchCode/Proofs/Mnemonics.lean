import Mathlib.Tactic
import PatchCode.Instruction.Form
import PatchCode.Proofs.InstructionWords

/-! What mnemonics stand for. A table says, for each mnemonic, which base instruction it stands for,
how many operands it has, which of them may be left out, and which operand goes into which free slot
of the word; from it a line is expanded to its base instruction and the values of its fields. -/

namespace PatchCode

/-- What a free slot holds, by the positions of the operands. -/
inductive Content where
  | number (n : Nat)
  | general (i : Nat)
  | float (i : Nat)
  | condition (i : Nat)
  | literal (width i : Nat)
  | negated (width i : Nat)
  /-- The last bit of a mask that leaves out as many bits as a literal says. -/
  | upTo (i : Nat)
  /-- The words to a target, of which only the low `width` bits of their distance in bytes count. -/
  | distance (width i : Nat)
  deriving Repr, DecidableEq

namespace Content

def generalNumber? (token : String) : Option Nat :=
  match String.ofList (token.toList.map Char.toLower) with
  | "sp" => some 1
  | "rtoc" => some 2
  | _ => Operand.register? "r" token

def integer? (token : String) : Option Int := Literal.integer? token.toList

def value? (operands : List String) (address : Address) : Content → Option Nat
  | number n => some n
  | general i => (operands[i]?.bind generalNumber?).map (· % 32)
  | float i => (operands[i]?.bind (Operand.register? "f")).map (· % 32)
  | condition i => (operands[i]?.bind (Operand.register? "cr")).map (· % 8)
  | literal width i => (operands[i]?.bind integer?).map fun n => (n % 2 ^ width).toNat
  | negated width i => (operands[i]?.bind integer?).map fun n => (-n % 2 ^ width).toNat
  | upTo i => (operands[i]?.bind integer?).map fun n => 31 - (n % 32).toNat
  | distance width i =>
    (operands[i]?.bind integer?).map fun n : Int => ((n - address.toNat) % 2 ^ width).toNat / 4

def collect (operands : List String) (address : Address) :
    List Content → List Nat → Option (List Nat)
  | [], values => some values
  | c :: cs, values =>
    (c.value? operands address).bind fun n => collect operands address cs (values ++ [n])

end Content

/-- How a mnemonic is used: the base instruction that it stands for, the number of its operands,
those that stand in front where they are left out, and what goes into the free slots. -/
structure Usage where
  base : String
  count : Nat
  defaults : List String
  contents : List Content
  deriving Repr, DecidableEq

namespace Usage

def complete? (u : Usage) (operands : List String) : Option (List String) :=
  if operands.length = u.count then some operands
  else if (u.defaults ++ operands).length = u.count then some (u.defaults ++ operands)
  else none

def values? (u : Usage) (operands : List String) (address : Address) : Option (List Nat) :=
  (u.complete? operands).bind fun operands => Content.collect operands address u.contents []

def own (count : Nat) (contents : List Content) (mnemonic : String) : String × Usage :=
  (mnemonic, ⟨mnemonic, count, [], contents⟩)

/-- A base instruction whose first operand is a condition field that may be left out. -/
def conditional (count : Nat) (contents : List Content) (mnemonic : String) : String × Usage :=
  (mnemonic, ⟨mnemonic, count, ["cr0"], contents⟩)

def ofMnemonic : List (String × Usage) :=
  ["blr", "blrl", "bctr", "bctrl"].map (own 0 []) ++
  ["addi", "addis", "mulli"].map (own 3 [.general 0, .general 1, .literal 16 2]) ++
  ["ori", "oris", "xori", "xoris", "andi.", "andis."].map
    (own 3 [.general 1, .general 0, .literal 16 2]) ++
  ["cmpwi", "cmplwi"].map (conditional 3 [.condition 0, .general 1, .literal 16 2]) ++
  ["cmpw", "cmplw"].map (conditional 3 [.condition 0, .general 1, .general 2]) ++
  ["lwz", "lwzu", "lbz", "lbzu", "stw", "stwu", "stb", "stbu", "lhz", "lha", "sth", "lmw",
    "stmw"].map (own 3 [.general 0, .general 2, .literal 16 1]) ++
  ["lfs", "lfd", "stfs", "stfd"].map (own 3 [.float 0, .general 2, .literal 16 1]) ++
  ["add", "subf", "mullw", "divw", "divwu"].map (own 3 [.general 0, .general 1, .general 2]) ++
  ["and", "or", "xor", "nor", "slw", "srw", "sraw"].map
    (own 3 [.general 1, .general 0, .general 2]) ++
  [own 2 [.general 0, .general 1] "neg",
    own 5 [.general 1, .general 0, .literal 5 2, .literal 5 3, .literal 5 4] "rlwinm"] ++
  ["mflr", "mfctr", "mtlr", "mtctr"].map (own 1 [.general 0]) ++
  ["b", "bl"].map (own 1 [.distance 26 0]) ++
  ["beq", "bne", "blt", "bge", "bgt", "ble"].map (conditional 2 [.condition 0, .distance 16 1]) ++
  [("nop", ⟨"ori", 0, [], [.number 0, .number 0, .number 0]⟩),
    ("li", ⟨"addi", 2, [], [.general 0, .number 0, .literal 16 1]⟩),
    ("lis", ⟨"addis", 2, [], [.general 0, .number 0, .literal 16 1]⟩),
    ("subi", ⟨"addi", 3, [], [.general 0, .general 1, .negated 16 2]⟩),
    ("sub", ⟨"subf", 3, [], [.general 0, .general 2, .general 1]⟩),
    ("mr", ⟨"or", 2, [], [.general 1, .general 0, .general 1]⟩),
    ("slwi", ⟨"rlwinm", 3, [], [.general 1, .general 0, .literal 5 2, .number 0, .upTo 2]⟩),
    ("srwi", ⟨"rlwinm", 3, [], [.general 1, .general 0, .negated 5 2, .literal 5 2, .number 31]⟩)]

end Usage

def Instruction.expand? (mnemonic : String) (operands : List String) (address : Address) :
    Option (String × List Nat) := do
  let u ← Usage.ofMnemonic.lookup mnemonic.toLower
  let values ← u.values? operands address
  return (u.base, values)

namespace Form

def layout : Form → Layout
  | bare (.immediate opcode _ _ _) | arithmetic opcode | load opcode | logical opcode
  | memory opcode | floatMemory opcode => .immediate opcode.toNat
  | bare (.jumpRegister extended link) => .jumpRegister extended.toNat link.toNat
  | bare i => [.fixed 32 i.bits.toNat]
  | subtractImmediate => .immediate 14
  | compareImmediate opcode => .compareImmediate opcode.toNat
  | compare extended => .compareRegisters extended.toNat
  | arithmeticRegisters extended | logicalRegisters extended => .registers extended.toNat
  | subtract => .registers 40
  | negate => .negation
  | move => .registers 444
  | rotate | shiftLeft | shiftRight => .rotation
  | special number extended => .special (number.toNat % 32) (number.toNat / 32) extended.toNat
  | jump link => .jump link.toNat
  | branch options bit => .branch options.toNat bit.toNat

def usage (base : String) : Form → Usage
  | bare (.immediate _ d a value) =>
    ⟨base, 0, [], [.number d.toNat, .number a.toNat, .number value.toNat]⟩
  | bare _ => ⟨base, 0, [], []⟩
  | arithmetic _ => ⟨base, 3, [], [.general 0, .general 1, .literal 16 2]⟩
  | load _ => ⟨base, 2, [], [.general 0, .number 0, .literal 16 1]⟩
  | subtractImmediate => ⟨base, 3, [], [.general 0, .general 1, .negated 16 2]⟩
  | logical _ => ⟨base, 3, [], [.general 1, .general 0, .literal 16 2]⟩
  | compareImmediate _ => ⟨base, 3, ["cr0"], [.condition 0, .general 1, .literal 16 2]⟩
  | compare _ => ⟨base, 3, ["cr0"], [.condition 0, .general 1, .general 2]⟩
  | memory _ => ⟨base, 3, [], [.general 0, .general 2, .literal 16 1]⟩
  | floatMemory _ => ⟨base, 3, [], [.float 0, .general 2, .literal 16 1]⟩
  | arithmeticRegisters _ => ⟨base, 3, [], [.general 0, .general 1, .general 2]⟩
  | subtract => ⟨base, 3, [], [.general 0, .general 2, .general 1]⟩
  | negate => ⟨base, 2, [], [.general 0, .general 1]⟩
  | logicalRegisters _ => ⟨base, 3, [], [.general 1, .general 0, .general 2]⟩
  | move => ⟨base, 2, [], [.general 1, .general 0, .general 1]⟩
  | rotate => ⟨base, 5, [], [.general 1, .general 0, .literal 5 2, .literal 5 3, .literal 5 4]⟩
  | shiftLeft => ⟨base, 3, [], [.general 1, .general 0, .literal 5 2, .number 0, .upTo 2]⟩
  | shiftRight => ⟨base, 3, [], [.general 1, .general 0, .negated 5 2, .literal 5 2, .number 31]⟩
  | special .. => ⟨base, 1, [], [.general 0]⟩
  | jump _ => ⟨base, 1, [], [.distance 26 0]⟩
  | branch .. => ⟨base, 2, ["cr0"], [.condition 0, .distance 16 1]⟩

theorem base_usage (base : String) (form : Form) : (form.usage base).base = base := by
  fun_cases usage <;> rfl

/-- The tables know every mnemonic, as its form says. -/
theorem usage_of_mnemonic {mnemonic : String} {form : Form} (h : ofMnemonic? mnemonic = some form) :
    ∃ base, Usage.ofMnemonic.lookup mnemonic = some (form.usage base) ∧
      Layout.ofBase.lookup base = some form.layout := by
  unfold ofMnemonic? at h
  split at h
  all_goals cases h
  all_goals exact ⟨_, rfl, rfl⟩

theorem mnemonics_known : ∀ entry ∈ Usage.ofMnemonic, (ofMnemonic? entry.1).isSome := by
  decide +kernel

end Form

end PatchCode
