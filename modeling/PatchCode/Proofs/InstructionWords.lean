import Mathlib.Tactic
import PatchCode.Instruction.Basic
import PatchCode.Proofs.BitLayout

/-! The words of instructions. A table says how the word of each base instruction is laid out; the
bits that no operand reaches are fixed zeros. The word of an instruction is read by its layout to
exactly the values of its fields, and no word fits the layouts of two base instructions. -/

namespace PatchCode

namespace Layout

def immediate (opcode : Nat) : Layout := [.fixed 6 opcode, .free 5, .free 5, .free 16]

def compareImmediate (opcode : Nat) : Layout :=
  [.fixed 6 opcode, .free 3, .fixed 2 0, .free 5, .free 16]

def registers (extended : Nat) : Layout :=
  [.fixed 6 31, .free 5, .free 5, .free 5, .fixed 10 extended, .fixed 1 0]

def compareRegisters (extended : Nat) : Layout :=
  [.fixed 6 31, .free 3, .fixed 2 0, .free 5, .free 5, .fixed 10 extended, .fixed 1 0]

def negation : Layout := [.fixed 6 31, .free 5, .free 5, .fixed 5 0, .fixed 10 104, .fixed 1 0]

def rotation : Layout := [.fixed 6 21, .free 5, .free 5, .free 5, .free 5, .free 5, .fixed 1 0]

/-- The low half of the special register's number stands first. -/
def special (low high extended : Nat) : Layout :=
  [.fixed 6 31, .free 5, .fixed 5 low, .fixed 5 high, .fixed 10 extended, .fixed 1 0]

def jump (link : Nat) : Layout := [.fixed 6 18, .free 24, .fixed 1 0, .fixed 1 link]

def branch (options bit : Nat) : Layout :=
  [.fixed 6 16, .fixed 5 options, .free 3, .fixed 2 bit, .free 14, .fixed 2 0]

def jumpRegister (extended link : Nat) : Layout :=
  [.fixed 6 19, .fixed 5 20, .fixed 5 0, .fixed 5 0, .fixed 10 extended, .fixed 1 link]

def ofBase : List (String × Layout) :=
  [("mulli", immediate 7), ("addi", immediate 14), ("addis", immediate 15), ("ori", immediate 24),
    ("oris", immediate 25), ("xori", immediate 26), ("xoris", immediate 27),
    ("andi.", immediate 28),
    ("andis.", immediate 29), ("lwz", immediate 32), ("lwzu", immediate 33), ("lbz", immediate 34),
    ("lbzu", immediate 35), ("stw", immediate 36), ("stwu", immediate 37), ("stb", immediate 38),
    ("stbu", immediate 39), ("lhz", immediate 40), ("lha", immediate 42), ("sth", immediate 44),
    ("lmw", immediate 46), ("stmw", immediate 47), ("lfs", immediate 48), ("lfd", immediate 50),
    ("stfs", immediate 52), ("stfd", immediate 54), ("cmplwi", compareImmediate 10),
    ("cmpwi", compareImmediate 11),
    ("cmpw", compareRegisters 0), ("cmplw", compareRegisters 32), ("add", registers 266),
    ("subf", registers 40),
    ("mullw", registers 235), ("divw", registers 491), ("divwu", registers 459),
    ("and", registers 28),
    ("or", registers 444), ("xor", registers 316), ("nor", registers 124), ("slw", registers 24),
    ("srw", registers 536), ("sraw", registers 792), ("neg", negation), ("rlwinm", rotation),
    ("mflr", special 8 0 339), ("mfctr", special 9 0 339), ("mtlr", special 8 0 467),
    ("mtctr", special 9 0 467),
    ("b", jump 0), ("bl", jump 1), ("beq", branch 12 2), ("bne", branch 4 2), ("blt", branch 12 0),
    ("bge", branch 4 0), ("bgt", branch 12 1), ("ble", branch 4 1), ("blr", jumpRegister 16 0),
    ("blrl", jumpRegister 16 1), ("bctr", jumpRegister 528 0), ("bctrl", jumpRegister 528 1)]

theorem read_immediate (opcode : BitVec 6) (d a : BitVec 5) (value : BitVec 16) :
    read (immediate opcode.toNat) (Instruction.immediate opcode d a value).word.toNat =
      some [d.toNat, a.toNat, value.toNat] := by
  change read ([Slot.fixed 6 opcode.toNat] ++ [Slot.free 5] ++ [Slot.free 5] ++ [Slot.free 16])
    (opcode ++ d ++ a ++ value).toNat = _
  simp only [read_append_free, read_first, Option.map_some]
  rfl

theorem read_compareImmediate (opcode : BitVec 6) (field : BitVec 3) (a : BitVec 5)
    (value : BitVec 16) :
    read (compareImmediate opcode.toNat)
      (Instruction.immediate opcode (field ++ 0#2) a value).word.toNat =
      some [field.toNat, a.toNat, value.toNat] := by
  change read ([Slot.fixed 6 opcode.toNat] ++ [Slot.free 3] ++ [Slot.fixed 2 (0#2).toNat] ++
    [Slot.free 5] ++ [Slot.free 16]) (opcode ++ (field ++ 0#2) ++ a ++ value).toNat = _
  rw [read_append_free, read_append_free, toNat_append_assoc, read_append_fixed,
    read_append_free, read_first]
  rfl

theorem read_registers (d a b : BitVec 5) (extended : BitVec 10) :
    read (registers extended.toNat) (Instruction.registers d a b extended).word.toNat =
      some [d.toNat, a.toNat, b.toNat] := by
  change read ([Slot.fixed 6 (31#6).toNat] ++ [Slot.free 5] ++ [Slot.free 5] ++ [Slot.free 5] ++
    [Slot.fixed 10 extended.toNat] ++ [Slot.fixed 1 (0#1).toNat]) (31#6 ++ d ++ a ++ b ++
      extended ++ 0#1).toNat = _
  simp only [read_append_fixed, read_append_free, read_first, Option.map_some]
  rfl

theorem read_compareRegisters (field : BitVec 3) (a b : BitVec 5) (extended : BitVec 10) :
    read (compareRegisters extended.toNat)
      (Instruction.registers (field ++ 0#2) a b extended).word.toNat =
      some [field.toNat, a.toNat, b.toNat] := by
  change read ([Slot.fixed 6 (31#6).toNat] ++ [Slot.free 3] ++ [Slot.fixed 2 (0#2).toNat] ++
    [Slot.free 5] ++ [Slot.free 5] ++ [Slot.fixed 10 extended.toNat] ++ [Slot.fixed 1 (0#1).toNat])
    (31#6 ++ (field ++ 0#2) ++ a ++ b ++ extended ++ 0#1).toNat = _
  rw [read_append_fixed, read_append_fixed, read_append_free, read_append_free, toNat_append_assoc,
    read_append_fixed, read_append_free, read_first]
  rfl

theorem read_negation (d a : BitVec 5) :
    read negation (Instruction.registers d a 0 104).word.toNat = some [d.toNat, a.toNat] := by
  change read ([Slot.fixed 6 (31#6).toNat] ++ [Slot.free 5] ++ [Slot.free 5] ++
    [Slot.fixed 5 (0#5).toNat] ++ [Slot.fixed 10 (104#10).toNat] ++ [Slot.fixed 1 (0#1).toNat])
      (31#6 ++ d ++ a ++ 0#5 ++ 104#10 ++ 0#1).toNat = _
  simp only [read_append_fixed, read_append_free, read_first, Option.map_some]
  rfl

theorem read_rotation (s a shift first last : BitVec 5) :
    read rotation (Instruction.rotate s a shift first last).word.toNat =
      some [s.toNat, a.toNat, shift.toNat, first.toNat, last.toNat] := by
  change read ([Slot.fixed 6 (21#6).toNat] ++ [Slot.free 5] ++ [Slot.free 5] ++ [Slot.free 5] ++
    [Slot.free 5] ++ [Slot.free 5] ++ [Slot.fixed 1 (0#1).toNat]) (21#6 ++ s ++ a ++ shift ++
      first ++ last ++ 0#1).toNat = _
  simp only [read_append_fixed, read_append_free, read_first, Option.map_some]
  rfl

theorem read_jump (distance : BitVec 24) (link : Bool) :
    read (jump link.toNat) (Instruction.jump distance link).word.toNat = some [distance.toNat] := by
  have hlink : (BitVec.ofBool link).toNat = link.toNat := BitVec.toNat_ofBool link
  change read ([Slot.fixed 6 (18#6).toNat] ++ [Slot.free 24] ++ [Slot.fixed 1 (0#1).toNat] ++
    [Slot.fixed 1 link.toNat]) (18#6 ++ distance ++ 0#1 ++ BitVec.ofBool link).toNat = _
  simp only [← hlink, read_append_fixed, read_append_free, read_first, Option.map_some]
  rfl

theorem read_branch (options : BitVec 5) (field : BitVec 3) (bit : BitVec 2)
    (distance : BitVec 14) :
    read (branch options.toNat bit.toNat)
      (Instruction.branch options (field ++ bit) distance).word.toNat =
      some [field.toNat, distance.toNat] := by
  change read ([Slot.fixed 6 (16#6).toNat] ++ [Slot.fixed 5 options.toNat] ++ [Slot.free 3] ++
    [Slot.fixed 2 bit.toNat] ++ [Slot.free 14] ++ [Slot.fixed 2 (0#2).toNat])
    (16#6 ++ options ++ (field ++ bit) ++ distance ++ 0#2).toNat = _
  rw [read_append_fixed, read_append_free, toNat_append_assoc, read_append_fixed, read_append_free,
    read_append_fixed, read_first]
  rfl

theorem read_jumpRegister (extended : BitVec 10) (link : Bool) :
    read (jumpRegister extended.toNat link.toNat)
      (Instruction.jumpRegister extended link).word.toNat = some [] := by
  have hlink : (BitVec.ofBool link).toNat = link.toNat := BitVec.toNat_ofBool link
  change read ([Slot.fixed 6 (19#6).toNat] ++ [Slot.fixed 5 (20#5).toNat] ++
    [Slot.fixed 5 (0#5).toNat] ++ [Slot.fixed 5 (0#5).toNat] ++ [Slot.fixed 10 extended.toNat] ++
      [Slot.fixed 1 link.toNat])
    (19#6 ++ 20#5 ++ 0#5 ++ 0#5 ++ extended ++ BitVec.ofBool link).toNat = _
  simp only [← hlink, read_append_fixed, read_first]

theorem read_special (d : BitVec 5) (number extended : BitVec 10) :
    read (special (number.toNat % 32) (number.toNat / 32) extended.toNat)
      (Instruction.special d number extended).word.toNat = some [d.toNat] := by
  have hlow : (number.extractLsb' 0 5).toNat = number.toNat % 32 := by simp
  have hhigh : (number.extractLsb' 5 5).toNat = number.toNat / 32 := by
    have := number.isLt
    rw [BitVec.extractLsb'_toNat, Nat.shiftRight_eq_div_pow]
    omega
  change read ([Slot.fixed 6 (31#6).toNat] ++ [Slot.free 5] ++ [Slot.fixed 5 (number.toNat % 32)] ++
    [Slot.fixed 5 (number.toNat / 32)] ++ [Slot.fixed 10 extended.toNat] ++
      [Slot.fixed 1 (0#1).toNat])
    (31#6 ++ d ++ (number.extractLsb' 0 5 ++ number.extractLsb' 5 5) ++ extended ++ 0#1).toNat = _
  rw [← hlow, ← hhigh, read_append_fixed, read_append_fixed, toNat_append_assoc, read_append_fixed,
    read_append_fixed, read_append_free, read_first]
  rfl

theorem pairwise_ofBase : ofBase.Pairwise fun p q => apart p.2 q.2 = true := by
  decide +kernel

theorem apart_of_ne {p q : String × Layout} (hp : p ∈ ofBase) (hq : q ∈ ofBase) (hne : p.1 ≠ q.1) :
    apart p.2 q.2 = true := by
  have : Std.Symm fun p q : String × Layout => apart p.2 q.2 = true := ⟨fun _ _ => apart_comm⟩
  exact pairwise_ofBase.forall hp hq fun h => hne (congrArg Prod.fst h)

theorem width_ofBase : ∀ p ∈ ofBase, width p.2 = 32 := by
  decide +kernel

end Layout

end PatchCode
