import Mathlib.Tactic
import PatchCode.Proofs.Execution
import PatchCode.Proofs.Requests

/-! What conditions and adjustments mean on the memory of `2 ^ 25` bytes that code records address.
Single-precision arithmetic stays a parameter. -/

namespace PatchCode

/-- Single-precision operations on bit patterns. -/
structure FloatUnit where
  add : UInt32 → UInt32 → UInt32
  less : UInt32 → UInt32 → Bool

def signedValue (width : Nat) (x : UInt32) : Int := Int.bmod x.toNat (256 ^ width)

def ValueType.less (fpu : FloatUnit) (type : ValueType) (x y : UInt32) : Bool :=
  if type.isFloat then fpu.less x y
  else if type.isSigned then signedValue type.size x < signedValue type.size y
  else x < y

def Comparison.test (less : UInt32 → UInt32 → Bool) (x value : UInt32) : Comparison → Bool
  | equal => x == value
  | unequal => x != value
  | lessThan => less x value
  | greaterThan => less value x
  | mask => x &&& value != 0

def Condition.holds (fpu : FloatUnit) (c : Condition) (m : Memory 25) : Bool :=
  c.comparison.test (c.type.less fpu) (m.load c.type.size c.address) (c.value &&& c.type.mask)

/-- What becomes of the operand, of which the low bytes are stored. -/
def Adjustment.result (fpu : FloatUnit) (a : Adjustment) (x : UInt32) : UInt32 :=
  match a.change with
  | .add => if a.type.isFloat then fpu.add x a.value else x + a.value
  | .bitSet => x ||| a.value
  | .bitUnset => x &&& ~~~a.value

def Adjustment.apply (fpu : FloatUnit) (a : Adjustment) (m : Memory 25) : Memory 25 :=
  m.store a.address (Bytes.ofNat a.type.size (a.result fpu (m.load a.type.size a.address)).toNat)

def FloatUnit.reading (fpu : FloatUnit) : Reading 25 :=
  ⟨fun c m => c.holds fpu m, fun a m => a.apply fpu m⟩

namespace Memory

theorem cell_congr {a b : Address} (h : a.inRecord = b.inRecord) : cell 25 a = cell 25 b := by
  have h := congrArg UInt32.toNat h
  rw [Address.toNat_inRecord, Address.toNat_inRecord] at h
  apply BitVec.eq_of_toNat_eq
  simpa [cell] using h

theorem cell_inRecord (a : Address) : cell 25 a.inRecord = cell 25 a :=
  cell_congr a.inRecord_inRecord

theorem read_congr (m : Memory 25) (n : Nat) {a b : Address} (h : a.inRecord = b.inRecord) :
    m.read n a = m.read n b := by
  induction n generalizing a b with
  | zero => rfl
  | succ n ih => rw [read, read, cell_congr h, ih (Address.inRecord_succ h)]

theorem load_congr (m : Memory 25) (n : Nat) {a b : Address} (h : a.inRecord = b.inRecord) :
    m.load n a = m.load n b := by
  rw [load, load, read_congr m n h]

def putAll (m : Memory 25) (cells : List (Address × UInt8)) : Memory 25 :=
  cells.foldl (fun m (a, b) => m.set a b) m

theorem store_eq_putAll (m : Memory 25) (a : Address) (bytes : List UInt8) :
    m.store a bytes = m.putAll (Write.cells ⟨a, bytes⟩) := by
  induction bytes generalizing m a with
  | nil => rfl
  | cons b bytes ih =>
    have hset : m.set a.inRecord b = m.set a b := by unfold set; rw [cell_inRecord]
    rw [store, ih, ← hset]
    rfl

theorem store_inRecord (m : Memory 25) (a : Address) (bytes : List UInt8) :
    m.store a.inRecord bytes = m.store a bytes := by
  rw [store_eq_putAll, store_eq_putAll, Write.cells_inRecord]

def storeAll (m : Memory 25) (ws : List Write) : Memory 25 :=
  ws.foldl (fun m w => m.store w.address w.bytes) m

/-- Only the byte stores count, not how they are cut into writes. -/
theorem storeAll_of_cells {ws : List Write} {w : Write} (h : ws.flatMap Write.cells = w.cells)
    (m : Memory 25) :
    m.storeAll ws = m.store w.address w.bytes := by
  have hall : ∀ (ws : List Write) (m : Memory 25), m.storeAll ws =
      m.putAll (ws.flatMap Write.cells) := by
    intro ws
    induction ws with
    | nil => intro m; rfl
    | cons w ws ih =>
      intro m
      rw [storeAll, List.foldl_cons, ← storeAll, ih, List.flatMap_cons, store_eq_putAll, putAll,
        putAll, putAll, List.foldl_append]
  rw [hall, h, store_eq_putAll]

theorem storeAll_planned (limits : FillLimits) (w : Write) :
    (fun m : Memory 25 => m.storeAll (w.planned limits)) = fun m => m.store w.address w.bytes :=
  funext fun m => storeAll_of_cells (w.cells_planned limits) m

theorem length_read {bits : Nat} (m : Memory bits) (n : Nat) (a : Address) :
    (m.read n a).length = n := by
  induction n generalizing a with
  | zero => rfl
  | succ n ih => rw [read, List.length_cons, ih]

end Memory

theorem ValueType.toNat_and_mask (t : ValueType) (v : UInt32) :
    (v &&& t.mask).toNat = v.toNat % 256 ^ t.size := by
  rw [UInt32.toNat_and]
  cases t with
  | u8 | s8 => exact Nat.and_two_pow_sub_one_eq_mod v.toNat 8
  | u16 | s16 => exact Nat.and_two_pow_sub_one_eq_mod v.toNat 16
  | u32 | s32 | f32 => exact Nat.and_two_pow_sub_one_eq_mod v.toNat 32

theorem ValueType.and_mask_word (v : UInt32) : v &&& mask f32 = v := by
  apply UInt32.toNat_inj.mp
  rw [toNat_and_mask]
  exact Nat.mod_eq_of_lt v.toNat_lt

/-- Bits that the type does not have are not stored. -/
theorem ValueType.ofNat_of_masked {t : ValueType} {x y : UInt32} (h : x &&& t.mask = y &&& t.mask) :
    Bytes.ofNat t.size x.toNat = Bytes.ofNat t.size y.toNat := by
  apply Bytes.ofNat_congr
  rw [Nat.ModEq, ← t.toNat_and_mask, ← t.toNat_and_mask, h]

namespace Adjustment

theorem ofNat_add_masked (t : ValueType) (x v : UInt32) :
    Bytes.ofNat t.size (x + (v &&& t.mask)).toNat = Bytes.ofNat t.size (x + v).toNat := by
  apply Bytes.ofNat_congr
  have hdvd : 256 ^ t.size ∣ 2 ^ 32 := by cases t <;> decide
  rw [UInt32.toNat_add, UInt32.toNat_add, t.toNat_and_mask, Nat.ModEq, Nat.mod_mod_of_dvd _ hdvd,
    Nat.mod_mod_of_dvd _ hdvd, Nat.add_mod_mod]

end Adjustment

def Reaches {σ : Type} (step : σ → Record → Option σ) (s : σ) (records : List Record)
    (t : σ) : Prop :=
  records.foldlM step s = some t

section Reaches

variable {σ : Type} {step : σ → Record → Option σ} {s t u : σ}

theorem Reaches.refl : Reaches step s [] s := rfl

theorem Reaches.cons {r : Record} {rs : List Record} (h : step s r = some t)
    (h' : Reaches step t rs u) :
    Reaches step s (r :: rs) u := by
  rw [Reaches, List.foldlM_cons, h]
  exact h'

theorem Reaches.append {rs ss : List Record} (h : Reaches step s rs t) (h' : Reaches step t ss u) :
    Reaches step s (rs ++ ss) u := by
  rw [Reaches, List.foldlM_append, h]
  exact h'

end Reaches

end PatchCode
