import Mathlib.Tactic
import PatchCode.Proofs.Meaning

/-! A machine that carries out Gecko lines, and what it does with stores and with the three lines of
an adjustment. A conditional stays open up to its terminator; inside one that does not hold only
conditionals and terminators count. -/

namespace PatchCode

namespace Gecko

def order? (x value : UInt32) : Nat → Option Bool
  | 0 => some (x == value)
  | 2 => some (x != value)
  | 4 => some (value < x)
  | 6 => some (x < value)
  | _ => none

/-- Compares a word, or the bits of a halfword that the value does not leave out. -/
def test? (m : Memory 25) (r : Record) : Option Bool :=
  let address := Address.inRecord r.left &&& ~~~1
  let code := (Replay.code r).toNat
  if code < 0x28 then order? (m.load 4 address) r.right (code - 0x20)
  else order? (m.load 2 address &&& ~~~(r.right >>> 16)) (r.right &&& 0xFFFF) (code - 0x28)

def isComparison (r : Record) : Bool := 0x20 ≤ (Replay.code r).toNat ∧ (Replay.code r).toNat < 0x30

def width? : Nat → Option Nat
  | 0 => some 1
  | 1 => some 2
  | 2 => some 4
  | _ => none

def operate? (fpu : FloatUnit) (x operand : UInt32) : Nat → Option UInt32
  | 0 => some (x + operand)
  | 2 => some (x ||| operand)
  | 3 => some (x &&& operand)
  | 9 => some (fpu.add x operand)
  | _ => none

/-- A digit of the left word, counted from the right. -/
def digit (r : Record) (n : Nat) : Nat := r.left.toNat / 16 ^ n % 16

structure Machine where
  memory : Memory 25
  registers : Fin 16 → UInt32
  /-- Which of the open conditionals hold, the innermost first. -/
  conditions : List Bool := []
  /-- A bulk store whose lines are being read. -/
  pending : Option Replay.Pending := none

namespace Machine

def active (s : Machine) : Bool := s.conditions.all id

def settle (s : Machine) (t : Replay.State) : Machine :=
  { s with memory := s.memory.storeAll t.done.reverse, pending := t.pending }

/-- Opens a conditional. The lowest address bit asks to close the innermost open one first. -/
def compare? (s : Machine) (r : Record) : Option Machine := do
  let conditions := if r.left % 2 = 1 then s.conditions.tail else s.conditions
  let holds ← test? s.memory r
  some { s with conditions := (conditions.all id && holds) :: conditions }

def execute? (fpu : FloatUnit) (s : Machine) (r : Record) : Option Machine :=
  let register := Fin.ofNat 16 (digit r 0)
  match (Replay.code r).toNat, digit r 4 with
  | 0x82, 1 => do
    let width ← width? (digit r 5)
    some { s with registers := Function.update s.registers register (s.memory.load width r.right) }
  | 0x84, 1 => do
    let width ← width? (digit r 5)
    some { s with
      memory := s.memory.store r.right (Bytes.ofNat width (s.registers register).toNat) }
  | 0x86, 0 => do
    let x ← operate? fpu (s.registers register) r.right (digit r 5)
    some { s with registers := Function.update s.registers register x }
  | _, _ =>
    match Replay.request .gecko r with
    | .write w => some { s with memory := s.memory.store w.address w.bytes }
    | .bulk address size => some (s.settle (Replay.settle [] ⟨address, size, (size + 7) / 8, []⟩))
    | .unsupported _ => none

/-- Inside a conditional that does not hold only comparisons and terminators count. -/
def step? (fpu : FloatUnit) (s : Machine) (r : Record) : Option Machine :=
  match s.pending with
  | some p =>
    some (s.settle (Replay.settle [] { p with missing := p.missing - 1, rows := r :: p.rows }))
  | none =>
    if r = terminator then some { s with conditions := s.conditions.tail }
    else if isComparison r then s.compare? r
    else if s.active then s.execute? fpu r
    else some s

end Machine

/-- The memory after all lines, provided that they can be read and that no bulk store lacks
lines. -/
def runLines? (fpu : FloatUnit) (registers : Fin 16 → UInt32) (lines : List String)
    (m : Memory 25) :
    Option (Memory 25) := do
  let records ← lines.mapM Record.ofLine?
  let s ← records.foldlM (Machine.step? fpu) { memory := m, registers }
  if s.pending.isNone then some s.memory else none

def Quiet (r : Record) : Prop := r ≠ terminator ∧ isComparison r = false

theorem quiet_of_code {r : Record} (h : (Replay.code r).toNat < 0x20 ∨ 0x30 ≤ (Replay.code r).toNat)
    (hne : (Replay.code r).toNat ≠ 0xE2) : Quiet r := by
  refine ⟨?_, by simp only [isComparison, decide_eq_false_iff_not]; omega⟩
  rintro rfl
  exact hne (by decide)

theorem Machine.step?_of_quiet {fpu : FloatUnit} {r : Record} (h : Quiet r) {s : Machine}
    (hpending : s.pending = none) :
    s.step? fpu r = if s.active then s.execute? fpu r else some s := by
  simp [Machine.step?, hpending, h.1, h.2]

section Stores

variable {r : Record}

theorem code_of_write {w : Write} (h : Replay.request .gecko r = .write w) :
    (Replay.code r).toNat < 0x06 := by
  unfold Replay.request at h
  simp only at h
  split at h <;> simp_all

theorem Machine.execute?_of_code (fpu : FloatUnit) (s : Machine)
    (h : (Replay.code r).toNat < 0x80) :
    s.execute? fpu r =
      match Replay.request .gecko r with
      | .write w => some { s with memory := s.memory.store w.address w.bytes }
      | .bulk address size => some (s.settle (Replay.settle [] ⟨address, size, (size + 7) / 8, []⟩))
      | .unsupported _ => none := by
  unfold Machine.execute?
  simp only
  split
  next hcode _ => omega
  next hcode _ => omega
  next hcode _ => omega
  next => rfl

end Stores

section Registers

variable (register : Fin 16) (a : Adjustment)

theorem transferWord_fields {code : UInt32} (h : code = 0x82 ∨ code = 0x84) (t : ValueType) :
    let left := (code <<< 24) ||| (sizeCode t <<< 20) ||| 0x10000 ||| registerField register
    left.toNat / 2 ^ 25 * 2 = code.toNat ∧ left.toNat / 16 ^ 4 % 16 = 1 ∧
      width? (left.toNat / 16 ^ 5 % 16) = some t.size ∧
      Fin.ofNat 16 (left.toNat / 16 ^ 0 % 16) = register := by
  revert register
  rcases h with rfl | rfl <;> cases t <;> decide +kernel

theorem operateWord_fields {code : UInt32} (h : code = 0 ∨ code = 2 ∨ code = 3 ∨ code = 9) :
    let left := ((0x86 : UInt32) <<< 24) ||| (code <<< 20) ||| registerField register
    left.toNat / 2 ^ 25 * 2 = 0x86 ∧ left.toNat / 16 ^ 4 % 16 = 0 ∧
      left.toNat / 16 ^ 5 % 16 = code.toNat ∧
      Fin.ofNat 16 (left.toNat / 16 ^ 0 % 16) = register := by
  revert register
  rcases h with rfl | rfl | rfl | rfl <;> decide +kernel

theorem transfer_fields {code : UInt32} (h : code = 0x82 ∨ code = 0x84) :
    (Replay.code (transfer code register a)).toNat = code.toNat ∧
    digit (transfer code register a) 4 = 1 ∧
      width? (digit (transfer code register a) 5) = some a.type.size ∧
      Fin.ofNat 16 (digit (transfer code register a) 0) = register := by
  rw [Replay.toNat_code]
  exact transferWord_fields register h a.type

theorem operate_fields :
    (Replay.code (operate register a)).toNat = 0x86 ∧ digit (operate register a) 4 = 0 ∧
      digit (operate register a) 5 = (operation a).1.toNat ∧
      Fin.ofNat 16 (digit (operate register a) 0) = register := by
  have hcode : (operation a).1 = 0 ∨ (operation a).1 = 2 ∨ (operation a).1 = 3 ∨
      (operation a).1 = 9 := by
    unfold operation
    split <;> simp
  rw [Replay.toNat_code]
  exact operateWord_fields register hcode

theorem quiet_adjust : ∀ r ∈ (adjust register a).lines, Quiet r := by
  have hload := (transfer_fields register a (Or.inl rfl)).1
  have hoperate := (operate_fields register a).1
  have hstore := (transfer_fields register a (Or.inr rfl)).1
  intro r hr
  simp only [adjust, Listing.lines_ofLines, List.mem_cons, List.not_mem_nil, or_false] at hr
  rcases hr with rfl | rfl | rfl
  · exact quiet_of_code (by rw [hload]; decide) (by rw [hload]; decide)
  · exact quiet_of_code (by rw [hoperate]; decide) (by rw [hoperate]; decide)
  · exact quiet_of_code (by rw [hstore]; decide) (by rw [hstore]; decide)

variable (fpu : FloatUnit) (s : Machine)

theorem execute?_load : s.execute? fpu (transfer 0x82 register a) =
    some { s with
      registers := Function.update s.registers register
        (s.memory.load a.type.size a.address) } := by
  obtain ⟨hcode, hkind, hwidth, hregister⟩ := transfer_fields register a (Or.inl rfl)
  have hload : s.memory.load a.type.size (transfer 0x82 register a).right =
      s.memory.load a.type.size a.address :=
    s.memory.load_congr _ a.address.inRecord_inRecord
  rw [Machine.execute?, hcode, hkind, hregister, hwidth, ← hload]
  rfl

theorem execute?_store {x : UInt32} (h : s.registers register = x) :
    s.execute? fpu (transfer 0x84 register a) =
    some { s with memory := s.memory.store a.address (Bytes.ofNat a.type.size x.toNat) } := by
  obtain ⟨hcode, hkind, hwidth, hregister⟩ := transfer_fields register a (Or.inr rfl)
  rw [Machine.execute?, hcode, hkind, hregister, hwidth, ← s.memory.store_inRecord a.address, ← h]
  rfl

theorem execute?_operate {x : UInt32}
    (h : operate? fpu (s.registers register) (operation a).2 (operation a).1.toNat = some x) :
    s.execute? fpu (operate register a) =
      some { s with registers := Function.update s.registers register x } := by
  obtain ⟨hcode, hkind, hoperation, hregister⟩ := operate_fields register a
  rw [Machine.execute?, hcode, hkind, hregister, hoperation]
  change (operate? fpu (s.registers register) (operation a).2 (operation a).1.toNat).bind _ = _
  rw [h]
  rfl

theorem or_masked (x v mask : UInt32) : (x ||| (v &&& mask)) &&& mask = (x ||| v) &&& mask := by
  apply UInt32.toBitVec_inj.mp
  apply BitVec.eq_of_getLsbD_eq
  intro i _
  simp only [UInt32.toBitVec_and, UInt32.toBitVec_or, BitVec.getLsbD_and, BitVec.getLsbD_or]
  cases x.toBitVec.getLsbD i <;> cases v.toBitVec.getLsbD i <;> cases mask.toBitVec.getLsbD i <;>
    rfl

theorem operate?_operation (x : UInt32) :
    ∃ y, operate? fpu x (operation a).2 (operation a).1.toNat = some y ∧
    Bytes.ofNat a.type.size y.toNat = Bytes.ofNat a.type.size (a.result fpu x).toNat := by
  unfold operation Adjustment.result
  cases a.change with
  | add =>
    cases hfloat : a.type.isFloat with
    | true => exact ⟨_, rfl, rfl⟩
    | false => exact ⟨_, rfl, Adjustment.ofNat_add_masked a.type x a.value⟩
  | bitSet => exact ⟨_, rfl, ValueType.ofNat_of_masked (or_masked x a.value a.type.mask)⟩
  | bitUnset =>
    refine ⟨_, rfl, ValueType.ofNat_of_masked ?_⟩
    rw [← UInt32.and_assoc, UInt32.and_assoc (x &&& ~~~a.value), UInt32.and_self]

end Registers

end Gecko

end PatchCode
