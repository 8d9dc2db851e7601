import Mathlib.Tactic
import PatchCode.Proofs.Meaning

/-! A machine that carries out Action Replay lines, and what each kind of line that the writer
produces does on it. The type of a record shares a byte with the highest address bit and holds three
fields: a comparison, an operand size and the lines that the comparison covers. -/

namespace PatchCode

namespace ActionReplay

def width? : Nat → Option Nat
  | 0 => some 1
  | 2 => some 2
  | 4 => some 4
  | _ => none

/-- Compares an operand of so many bytes with a value as the comparison bits say. -/
def test? (width : Nat) (x value : UInt32) : Nat → Option Bool
  | 0x08 => some (x == value)
  | 0x10 => some (x != value)
  | 0x18 => some (signedValue width x < signedValue width value)
  | 0x20 => some (signedValue width value < signedValue width x)
  | 0x28 => some (x < value)
  | 0x30 => some (value < x)
  | 0x38 => some (x &&& value != 0)
  | _ => none

def increment? (fpu : FloatUnit) (m : Memory 25) (a : Address) (value : UInt32) (size : Nat) :
    Option (Memory 25) :=
  if size = 6 then some (m.store a (Bytes.ofNat 4 (fpu.add (m.load 4 a) value).toNat))
  else (width? size).map fun width => m.store a (Bytes.ofNat width (m.load width a + value).toNat)

structure Machine where
  memory : Memory 25
  /-- So many lines are still to be skipped. -/
  lines : Nat := 0
  /-- So many terminators are still to be passed before lines count again. -/
  depth : Nat := 0

/-- The lines that a comparison covers by the bits that say so. -/
def extent? : Nat → Option Extent
  | 0x00 => some .one
  | 0x40 => some .two
  | 0x80 => some .all
  | _ => none

def Machine.skip (s : Machine) : Extent → Machine
  | .one => { s with lines := 1 }
  | .two => { s with lines := 2 }
  | .all => { s with depth := 1 }

def comparisonBits (r : Record) : Nat := (Replay.code r).toNat / 8 % 8 * 8

def sizeBits (r : Record) : Nat := (Replay.code r).toNat % 8

def extentBits (r : Record) : Nat := (Replay.code r).toNat / 0x40 * 0x40

def Machine.compare? (s : Machine) (r : Record) : Option Machine := do
  let width ← width? (sizeBits r)
  let holds ← test? width (s.memory.load width (Address.inRecord r.left)) r.right (comparisonBits r)
  let extent ← extent? (extentBits r)
  if holds then s else s.skip extent

def Machine.execute? (fpu : FloatUnit) (s : Machine) (r : Record) : Option Machine :=
  if r = terminator then s
  else if comparisonBits r ≠ 0 then s.compare? r
  else if extentBits r = 0x80 then
    (increment? fpu s.memory (Address.inRecord r.left) r.right (sizeBits r)).map fun memory =>
      { s with memory }
  else
    match Replay.request .actionReplay r with
    | .write w => some { s with memory := s.memory.store w.address w.bytes }
    | _ => none

def opensAll (r : Record) : Bool := comparisonBits r ≠ 0 ∧ extentBits r = 0x80

def Machine.step? (fpu : FloatUnit) (s : Machine) (r : Record) : Option Machine :=
  if s.lines ≠ 0 then some { s with lines := s.lines - 1 }
  else if s.depth ≠ 0 then
    if r = terminator then some { s with depth := s.depth - 1 }
    else if opensAll r then some { s with depth := s.depth + 1 }
    else some s
  else s.execute? fpu r

/-- The memory after all lines, provided that they can be read and that every comparison is followed
by what it covers. -/
def runLines? (fpu : FloatUnit) (lines : List String) (m : Memory 25) : Option (Memory 25) := do
  let records ← lines.mapM Record.ofLine?
  let s ← records.foldlM (Machine.step? fpu) { memory := m }
  if s.lines = 0 ∧ s.depth = 0 then some s.memory else none

theorem headerCode_fields (k : Comparison) (t : ValueType) (e : Extent) :
    (comparisonCode k t ||| comparedSizeCode t ||| e.code).toNat % 2 = 0 ∧
      (comparisonCode k t ||| comparedSizeCode t ||| e.code).toNat < 256 ∧
      (comparisonCode k t ||| comparedSizeCode t ||| e.code).toNat / 8 % 8 * 8 =
        (comparisonCode k t).toNat ∧
      (comparisonCode k t ||| comparedSizeCode t ||| e.code).toNat % 8 =
        (comparedSizeCode t).toNat ∧
      (comparisonCode k t ||| comparedSizeCode t ||| e.code).toNat / 0x40 * 0x40 =
        e.code.toNat := by
  cases k <;> cases t <;> cases e <;> decide

section

variable (c : Condition) (e : Extent)

theorem code_header : Replay.code (header c e) =
    comparisonCode c.comparison c.type ||| comparedSizeCode c.type ||| e.code := by
  obtain ⟨heven, hlt, -⟩ := headerCode_fields c.comparison c.type e
  exact Replay.code_codeWord heven hlt _ _

theorem bits_header : comparisonBits (header c e) = (comparisonCode c.comparison c.type).toNat ∧
    sizeBits (header c e) = (comparedSizeCode c.type).toNat ∧
    extentBits (header c e) = e.code.toNat := by
  obtain ⟨-, -, hcomparison, hsize, hextent⟩ := headerCode_fields c.comparison c.type e
  rw [comparisonBits, sizeBits, extentBits, code_header]
  exact ⟨hcomparison, hsize, hextent⟩

theorem comparisonBits_header_ne : comparisonBits (header c e) ≠ 0 := by
  rw [(bits_header c e).1]
  cases c.comparison <;> cases c.type <;> decide

theorem header_ne_terminator : header c e ≠ terminator := by
  intro h
  apply comparisonBits_header_ne c e
  rw [h]
  decide

theorem test?_comparisonCode (fpu : FloatUnit) {k : Comparison} {t : ValueType}
    (h : (t.isFloat && k.isOrdered) = false) (x value : UInt32) :
    test? t.size x value (comparisonCode k t).toNat = some (k.test (t.less fpu) x value) := by
  cases k with
  | equal | unequal | mask => cases t <;> rfl
  | lessThan | greaterThan =>
    cases t with
    | f32 => exact absurd h (by decide)
    | _ =>
      simp [test?, comparisonCode, Comparison.test, ValueType.less, ValueType.isFloat,
        ValueType.isSigned]

theorem compare?_header (fpu : FloatUnit) (s : Machine)
    (h : (c.type.isFloat && c.comparison.isOrdered) = false) :
    s.compare? (header c e) = some (if c.holds fpu s.memory then s else s.skip e) := by
  obtain ⟨hcomparison, hsize, hextent⟩ := bits_header c e
  obtain ⟨heven, hlt, -⟩ := headerCode_fields c.comparison c.type e
  have hwidth : width? (comparedSizeCode c.type).toNat = some c.type.size := by cases c.type <;> rfl
  have hlines : extent? e.code.toNat = some e := by cases e <;> rfl
  have haddress : Address.inRecord (header c e).left = c.address.inRecord :=
    Replay.inRecord_codeWord heven hlt _
  have hload : s.memory.load c.type.size (Address.inRecord (header c e).left) =
      s.memory.load c.type.size c.address :=
    s.memory.load_congr _ (by rw [haddress, Address.inRecord_inRecord])
  have htest : test? c.type.size (s.memory.load c.type.size c.address) (header c e).right
      (comparisonCode c.comparison c.type).toNat = some (c.holds fpu s.memory) :=
        test?_comparisonCode fpu h _ _
  simp only [Machine.compare?, hcomparison, hsize, hextent, hwidth, hlines, hload, htest,
    Option.bind_eq_bind, Option.bind_some]
  split_ifs <;> rfl

end

def Quiet (r : Record) : Prop := r ≠ terminator ∧ opensAll r = false

section Stores

variable {r : Record} {w : Write}

theorem bits_of_write (h : Replay.request .actionReplay r = .write w) :
    comparisonBits r = 0 ∧ extentBits r = 0 := by
  have hcode : (Replay.code r).toNat = 4 ∨ (Replay.code r).toNat = 0 ∨
      (Replay.code r).toNat = 2 := by
    unfold Replay.request at h
    simp only at h
    split at h <;> simp_all
  unfold comparisonBits extentBits
  rcases hcode with hcode | hcode | hcode <;> rw [hcode] <;> decide

theorem execute?_of_write (fpu : FloatUnit) (s : Machine)
    (h : Replay.request .actionReplay r = .write w) (hr : r ≠ terminator) :
    s.execute? fpu r = some { s with memory := s.memory.store w.address w.bytes } := by
  obtain ⟨hcomparison, hextent⟩ := bits_of_write h
  rw [Machine.execute?, if_neg hr, if_neg (by simp [hcomparison]), if_neg (by simp [hextent]), h]

/-- A fill of zeros from zero on spells the terminator if it is as long as this. -/
theorem ofWriteRecord_ne_terminator {r : WriteRecord} (h : r.size < 0x400000) :
    ofWriteRecord r ≠ terminator := by
  intro heq
  cases r with
  | byte address value count =>
    have hv := value.toNat_lt
    have hle := Replay.countField_le count
    have hright := congrArg (fun r => r.right.toNat) heq
    simp only [ofWriteRecord, terminator, WriteRecord.size] at hright h
    rw [UInt32.toNat_ofNat_of_lt' (show _ < 2 ^ 32 by omega)] at hright
    change _ = 0x40000000 at hright
    omega
  | half address value count =>
    have hleft := congrArg (fun r => r.left.toNat) heq
    simp only [ofWriteRecord, terminator] at hleft
    rw [Record.toNat_codeWord (by decide) (by decide)] at hleft
    change 2 * 2 ^ 24 + _ = 0 at hleft
    omega
  | word address value =>
    have hleft := congrArg (fun r => r.left.toNat) heq
    simp only [ofWriteRecord, terminator] at hleft
    rw [Record.toNat_codeWord (by decide) (by decide)] at hleft
    change 4 * 2 ^ 24 + _ = 0 at hleft
    omega

theorem quiet_ofWriteRecord {r : WriteRecord} (h : r.size < 0x400000) :
    Quiet (ofWriteRecord r) := by
  have hbits : comparisonBits (ofWriteRecord r) = 0 := by
    cases r <;> rw [ofWriteRecord, comparisonBits, Replay.code_codeWord (by decide) (by decide)] <;>
      decide
  exact ⟨ofWriteRecord_ne_terminator h, by simp [opensAll, hbits]⟩

end Stores

section Additions

variable (a : Adjustment)

def addition : Record :=
  ⟨Record.codeWord (0x80 ||| sizeCode a.type) a.address, a.value &&& a.type.mask⟩

theorem additionCode_fields (t : ValueType) :
    (0x80 ||| sizeCode t).toNat % 2 = 0 ∧ (0x80 ||| sizeCode t).toNat < 256 ∧
      (0x80 ||| sizeCode t).toNat / 8 % 8 * 8 = 0 ∧
      (0x80 ||| sizeCode t).toNat % 8 = (sizeCode t).toNat ∧
      (0x80 ||| sizeCode t).toNat / 0x40 * 0x40 = 0x80 := by
  cases t <;> decide

theorem bits_addition :
    comparisonBits (addition a) = 0 ∧ sizeBits (addition a) = (sizeCode a.type).toNat ∧
    extentBits (addition a) = 0x80 := by
  obtain ⟨heven, hlt, hcomparison, hsize, hextent⟩ := additionCode_fields a.type
  rw [comparisonBits, sizeBits, extentBits, addition, Replay.code_codeWord heven hlt]
  exact ⟨hcomparison, hsize, hextent⟩

theorem addition_ne_terminator : addition a ≠ terminator := by
  intro h
  have hextent := (bits_addition a).2.2
  rw [h] at hextent
  exact absurd hextent (by decide)

theorem quiet_addition : Quiet (addition a) :=
  ⟨addition_ne_terminator a, by simp [opensAll, (bits_addition a).1]⟩

theorem increment?_inRecord (fpu : FloatUnit) (m : Memory 25) (a : Address) (value : UInt32)
    (size : Nat) :
    increment? fpu m a.inRecord value size = increment? fpu m a value size := by
  unfold increment?
  simp only [m.store_inRecord, fun n => m.load_congr n a.inRecord_inRecord]

theorem increment?_sizeCode (fpu : FloatUnit) (ha : a.change = .add) (m : Memory 25) :
    increment? fpu m a.address (a.value &&& a.type.mask) (sizeCode a.type).toNat =
      some (a.apply fpu m) := by
  have hmasked := Adjustment.ofNat_add_masked a.type (m.load a.type.size a.address) a.value
  obtain ⟨change, type, address, value⟩ := a
  subst ha
  simp only [increment?, Adjustment.apply, Adjustment.result] at hmasked ⊢
  cases type with
  | f32 => rw [ValueType.and_mask_word]; rfl
  | _ => exact congrArg (fun bytes => some (m.store address bytes)) hmasked

theorem execute?_addition (fpu : FloatUnit) (ha : a.change = .add) (s : Machine) :
    s.execute? fpu (addition a) = some { s with memory := a.apply fpu s.memory } := by
  obtain ⟨hcomparison, hsize, hextent⟩ := bits_addition a
  obtain ⟨heven, hlt, -⟩ := additionCode_fields a.type
  have haddress : Address.inRecord (addition a).left = a.address.inRecord :=
    Replay.inRecord_codeWord heven hlt _
  rw [Machine.execute?, if_neg (addition_ne_terminator a), if_neg (by simp [hcomparison]),
    if_pos hextent, hsize, haddress, increment?_inRecord]
  change Option.map _ (increment? fpu s.memory a.address (a.value &&& a.type.mask) _) = _
  rw [increment?_sizeCode a fpu ha]
  rfl

end Additions

end ActionReplay

end PatchCode
