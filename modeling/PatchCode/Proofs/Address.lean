import Mathlib.Tactic
import PatchCode.Address

/-! Addresses as numbers. Steps are additions modulo `2 ^ 32`, a record keeps an address modulo `2 ^
25`, and boundaries of two and four bytes are the same in both. -/

namespace PatchCode.Address

theorem toNat_advance (a : Address) (n : Nat) : (a.advance n).toNat = (a.toNat + n) % 2 ^ 32 := by
  rw [advance, UInt32.toNat_add, UInt32.toNat_ofNat', Nat.add_mod_mod]

theorem advance_zero (a : Address) : a.advance 0 = a := by simp [advance]

theorem advance_succ (a : Address) (n : Nat) : a.advance (n + 1) = (a + 1).advance n := by
  apply UInt32.toNat_inj.mp
  simp only [toNat_advance, UInt32.toNat_add, UInt32.toNat_ofNat]
  omega

theorem advance_advance (a : Address) (m n : Nat) :
    (a.advance m).advance n = a.advance (m + n) := by
  apply UInt32.toNat_inj.mp
  simp only [toNat_advance]
  omega

theorem advance_add (a distance : Address) (n : Nat) :
    (a + distance).advance n = a.advance n + distance := by
  rw [advance, advance, UInt32.add_assoc, UInt32.add_comm distance, ← UInt32.add_assoc]

theorem advance_mod_four (a : Address) (n : Nat) : (a.advance n).toNat % 4 = (a.toNat + n) % 4 := by
  rw [toNat_advance]
  omega

theorem mod_two_eq_zero {a : Address} : a % 2 = 0 ↔ a.toNat % 2 = 0 := by
  rw [← UInt32.toNat_inj, UInt32.toNat_mod]
  rfl

theorem mod_four_eq_zero {a : Address} : a % 4 = 0 ↔ a.toNat % 4 = 0 := by
  rw [← UInt32.toNat_inj, UInt32.toNat_mod]
  rfl

/-- The bits below four are cleared by way of the sum. -/
theorem alignUp_four (a : Address) : a.alignUp 4 = .ofNat ((a.toNat + 3) / 4 * 4) := by
  have hmask : a.alignUp 4 = ((a + 3) >>> 2) <<< 2 := by
    apply UInt32.toBitVec_inj.mp
    change (a + 3).toBitVec &&& (BitVec.allOnes 32 <<< 2) = (a + 3).toBitVec >>> 2 <<< 2
    exact BitVec.shiftLeft_ushiftRight.symm
  apply UInt32.toNat_inj.mp
  rw [hmask, UInt32.toNat_shiftLeft, UInt32.toNat_shiftRight, UInt32.toNat_add, UInt32.toNat_ofNat',
    Nat.shiftLeft_eq, Nat.shiftRight_eq_div_pow]
  change (a.toNat + 3) % 2 ^ 32 / 2 ^ 2 * 2 ^ 2 % 2 ^ 32 = _
  omega

theorem alignUp_add (a : Address) {distance : Address} (h : distance.toNat % 4 = 0) :
    (a + distance).alignUp 4 = a.alignUp 4 + distance := by
  rw [alignUp_four, alignUp_four]
  apply UInt32.toNat_inj.mp
  simp only [UInt32.toNat_add, UInt32.toNat_ofNat']
  omega

theorem toNat_inRecord (a : Address) : a.inRecord.toNat = a.toNat % 2 ^ 25 := by
  rw [inRecord, UInt32.toNat_and]
  exact Nat.and_two_pow_sub_one_eq_mod a.toNat 25

theorem inRecord_inRecord (a : Address) : a.inRecord.inRecord = a.inRecord := by
  apply UInt32.toNat_inj.mp
  rw [toNat_inRecord, toNat_inRecord, Nat.mod_mod]

theorem inRecord_succ {a b : Address} (h : a.inRecord = b.inRecord) :
    (a + 1).inRecord = (b + 1).inRecord := by
  have h := congrArg UInt32.toNat h
  apply UInt32.toNat_inj.mp
  simp only [toNat_inRecord, UInt32.toNat_add] at h ⊢
  omega

end PatchCode.Address
