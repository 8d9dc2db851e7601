import Mathlib.Tactic
import PatchCode.Proofs.GeckoMachine

/-! The comparison that opens a guard asks what the condition asks. A byte is compared inside its
halfword: the bits of the other byte are left out, and the value is moved to where the byte lies. -/

namespace PatchCode

namespace Gecko

section Bits

/-- Bits below a shifted mask do not matter. -/
theorem and_mul_two_pow (k h l v : Nat) (hl : l < 2 ^ k) :
    (h * 2 ^ k + l) &&& (v * 2 ^ k) = (h &&& v) * 2 ^ k := by
  apply Nat.eq_of_testBit_eq
  intro i
  rw [Nat.testBit_and, mul_comm h, Nat.testBit_two_pow_mul_add _ hl, Nat.testBit_mul_two_pow,
    Nat.testBit_mul_two_pow, Nat.testBit_and]
  by_cases hi : i < k
  · simp [hi, not_le.mpr hi]
  · simp [hi, not_lt.mp hi]

theorem toNat_clearLow (a : UInt32) : (a &&& ~~~1).toNat = a.toNat / 2 * 2 := by
  have hlt := a.toNat_lt
  have hkeep : a.toNat / 2 &&& 0x7FFFFFFF = a.toNat / 2 :=
    Nat.and_two_pow_sub_one_of_lt_two_pow (n := 31) (by omega)
  have h := and_mul_two_pow 1 (a.toNat / 2) (a.toNat % 2) 0x7FFFFFFF (Nat.mod_lt _ (by decide))
  rw [show a.toNat / 2 * 2 ^ 1 + a.toNat % 2 = a.toNat by omega, hkeep] at h
  rw [UInt32.toNat_and]
  exact h

end Bits

section Lanes

variable (m : Memory 25)

theorem toNat_load_lt {n : Nat} (hn : n ≤ 4) (a : Address) : (m.load n a).toNat < 256 ^ n := by
  have h := Bytes.toNat_lt (m.read n a)
  rw [m.length_read] at h
  have hle : 256 ^ n ≤ 2 ^ 32 := by
    calc 256 ^ n ≤ 256 ^ 4 := Nat.pow_le_pow_right (by decide) hn
      _ = 2 ^ 32 := by norm_num
  rw [Memory.load, UInt32.toNat_ofNat_of_lt' (lt_of_lt_of_le h hle)]
  exact h

theorem toNat_load_half (a : Address) :
    (m.load 2 a).toNat = (m.load 1 a).toNat * 256 + (m.load 1 (a + 1)).toNat := by
  have h0 := (m (Memory.cell 25 a)).toNat_lt
  have h1 := (m (Memory.cell 25 (a + 1))).toNat_lt
  simp only [Memory.load, Memory.read, Bytes.toNat_cons, UInt32.toNat_ofNat', List.length_cons,
    List.length_nil]
  simp [Bytes.toNat]
  omega

/-- The value of a comparison moved to its half of the halfword, and the bits outside that half. -/
def lane (c : Condition) : UInt32 × UInt32 :=
  if c.type.size = 2 then (c.value &&& c.type.mask, 0)
  else if c.address % 2 = 0 then ((c.value &&& c.type.mask) <<< 8, 0x00FF)
  else (c.value &&& c.type.mask, 0xFF00)

theorem halfOperand_eq (c : Condition) :
    halfOperand c = if c.comparison = .mask then (0, ~~~(lane c).1 &&& 0xFFFF) else lane c := by
  unfold halfOperand lane
  cases c.comparison <;> rfl

/-- Within a halfword an operand and the value that it is compared with are moved by the same
factor. -/
structure InLane (x value half moved ignored : UInt32) (factor : Nat) : Prop where
  pos : 0 < factor
  moved_eq : moved.toNat = value.toNat * factor
  moved_lt : moved.toNat < 2 ^ 16
  ignored_lt : ignored.toNat < 2 ^ 16
  operand_eq : (half &&& ~~~ignored).toNat = x.toNat * factor
  common_eq : (half &&& moved).toNat = (x &&& value).toNat * factor

section InLane

variable {half x y v : UInt32}

theorem inLane_half (hv : v.toNat < 2 ^ 16) : InLane x v x v 0 1 where
  pos := by decide
  moved_eq := by simp
  moved_lt := hv
  ignored_lt := by decide
  operand_eq := by simp
  common_eq := by simp

theorem inLane_high (hhalf : half.toNat = x.toNat * 256 + y.toNat) (hx : x.toNat < 256)
    (hy : y.toNat < 256) (hv : v.toNat < 256) : InLane x v half (v <<< 8) 0x00FF 256 := by
  have hmoved : (v <<< 8).toNat = v.toNat * 2 ^ 8 := by
    rw [UInt32.toNat_shiftLeft, Nat.shiftLeft_eq]
    exact Nat.mod_eq_of_lt (show v.toNat * 2 ^ 8 < 2 ^ 32 by omega)
  refine ⟨by decide, hmoved, by omega, by decide, ?_, ?_⟩
  · have hkeep : x.toNat &&& 0xFFFFFF = x.toNat :=
      Nat.and_two_pow_sub_one_of_lt_two_pow (n := 24) (by omega)
    rw [UInt32.toNat_and, hhalf]
    exact (and_mul_two_pow 8 x.toNat y.toNat 0xFFFFFF hy).trans (congrArg (· * 2 ^ 8) hkeep)
  · rw [UInt32.toNat_and, UInt32.toNat_and, hhalf, hmoved]
    exact and_mul_two_pow 8 x.toNat y.toNat v.toNat hy

theorem inLane_low (hhalf : half.toNat = y.toNat * 256 + x.toNat) (hx : x.toNat < 256)
    (hy : y.toNat < 256) (hv : v.toNat < 256) : InLane x v half v 0xFF00 1 := by
  have hlow : half.toNat &&& 2 ^ 8 - 1 = x.toNat := by
    rw [Nat.and_two_pow_sub_one_eq_mod]
    omega
  refine ⟨by decide, by omega, by omega, by decide, ?_, ?_⟩
  · have hkeep : half.toNat &&& 0xFFFF = half.toNat :=
      Nat.and_two_pow_sub_one_of_lt_two_pow (n := 16) (by omega)
    rw [UInt32.toNat_and, ← hkeep, Nat.and_assoc, mul_one]
    exact hlow
  · have hkeep : 2 ^ 8 - 1 &&& v.toNat = v.toNat := by
      rw [Nat.and_comm, Nat.and_two_pow_sub_one_of_lt_two_pow hv]
    rw [UInt32.toNat_and, UInt32.toNat_and, ← hkeep, ← Nat.and_assoc, hlow, hkeep, mul_one]

end InLane

theorem and_not_masked {x mask : UInt32} (h : x &&& mask = x) (y : UInt32) :
    x &&& ~~~(~~~y &&& mask) = x &&& y := by
  rw [← h]
  apply UInt32.toBitVec_inj.mp
  apply BitVec.eq_of_getLsbD_eq
  intro i hi
  simp only [UInt32.toBitVec_and, UInt32.toBitVec_not, BitVec.getLsbD_and, BitVec.getLsbD_not, hi,
    decide_true]
  cases x.toBitVec.getLsbD i <;> cases y.toBitVec.getLsbD i <;> cases mask.toBitVec.getLsbD i <;>
    rfl

/-- Two halves of a word. -/
theorem halves {high low : UInt32} (hhigh : high.toNat < 2 ^ 16) (hlow : low.toNat < 2 ^ 16) :
    (high <<< 16 ||| low) >>> 16 = high ∧ (high <<< 16 ||| low) &&& 0xFFFF = low := by
  have hshift : (high <<< 16).toNat = high.toNat <<< 16 := by
    rw [UInt32.toNat_shiftLeft]
    exact Nat.mod_eq_of_lt (show high.toNat <<< 16 < 2 ^ 32 by rw [Nat.shiftLeft_eq]; omega)
  have hword : (high <<< 16 ||| low).toNat = high.toNat * 2 ^ 16 + low.toNat := by
    rw [UInt32.toNat_or, hshift, ← Nat.shiftLeft_add_eq_or_of_lt hlow, Nat.shiftLeft_eq]
  constructor
  · apply UInt32.toNat_inj.mp
    rw [UInt32.toNat_shiftRight, hword]
    change _ >>> 16 = _
    rw [Nat.shiftRight_eq_div_pow]
    omega
  · apply UInt32.toNat_inj.mp
    rw [UInt32.toNat_and, hword]
    refine (Nat.and_two_pow_sub_one_eq_mod _ 16).trans ?_
    omega

def halfword (a : Address) : Address := a.inRecord &&& ~~~1

theorem toNat_halfword (a : Address) : (halfword a).toNat = a.toNat % 2 ^ 25 / 2 * 2 := by
  rw [halfword, toNat_clearLow, Address.toNat_inRecord]

theorem inLane_lane (m : Memory 25) {c : Condition} (hsize : c.type.size ≠ 4)
    (haligned : isAligned c = true) :
    ∃ factor, InLane (m.load c.type.size c.address) (c.value &&& c.type.mask)
      (m.load 2 (halfword c.address)) (lane c).1 (lane c).2 factor := by
  have hcases : c.type.size = 2 ∨ c.type.size = 1 := by
    revert hsize
    cases c.type <;> decide
  have hvalue := c.type.toNat_and_mask c.value
  have hmod := toNat_halfword c.address
  rcases hcases with hsize | hsize
  · have heven : c.address.toNat % 2 = 0 := by simpa [isAligned, hsize] using haligned
    have hsame : (halfword c.address).inRecord = c.address.inRecord := by
      apply UInt32.toNat_inj.mp
      rw [Address.toNat_inRecord, Address.toNat_inRecord]
      omega
    rw [lane, if_pos hsize, hsize, m.load_congr 2 hsame]
    exact ⟨1, inLane_half (by rw [hvalue, hsize]; omega)⟩
  have hv : (c.value &&& c.type.mask).toNat < 256 := by rw [hvalue, hsize]; omega
  have hload := toNat_load_half m (halfword c.address)
  have hfirst := toNat_load_lt m (n := 1) (by decide) (halfword c.address)
  have hsecond := toNat_load_lt m (n := 1) (by decide) (halfword c.address + 1)
  rw [lane, if_neg (by omega), hsize]
  split_ifs with heven
  · have hsame : (halfword c.address).inRecord = c.address.inRecord := by
      have heven := congrArg UInt32.toNat heven
      rw [UInt32.toNat_mod] at heven
      change c.address.toNat % 2 = 0 at heven
      apply UInt32.toNat_inj.mp
      rw [Address.toNat_inRecord, Address.toNat_inRecord]
      omega
    rw [m.load_congr 1 hsame] at hload hfirst
    exact ⟨256, inLane_high hload hfirst hsecond hv⟩
  · have hsame : (halfword c.address + 1).inRecord = c.address.inRecord := by
      have hodd : c.address.toNat % 2 ≠ 0 :=
        fun h => heven (UInt32.toNat_inj.mp (by rw [UInt32.toNat_mod]; exact h))
      apply UInt32.toNat_inj.mp
      rw [Address.toNat_inRecord, Address.toNat_inRecord, UInt32.toNat_add, hmod]
      change (_ + 1) % 2 ^ 32 % _ = _
      omega
    rw [m.load_congr 1 hsame] at hload hsecond
    exact ⟨1, inLane_low hload hsecond hfirst hv⟩

end Lanes

def unsigned (k : Comparison) (x value : UInt32) : Bool := k.test (fun x y => x < y) x value

/-- Moving both sides by a factor does not change how they compare. -/
theorem order?_of_scaled {k : Comparison} (hk : k ≠ .mask) {x y u v : UInt32} {factor : Nat}
    (hpos : 0 < factor) (hx : u.toNat = x.toNat * factor) (hy : v.toNat = y.toNat * factor) :
    order? u v ((halfCode k).toNat - 0x28) = some (unsigned k x y) := by
  have heq : u = v ↔ x = y := by
    rw [← UInt32.toNat_inj, hx, hy, Nat.mul_left_inj (by omega), UInt32.toNat_inj]
  have hlt : ∀ {x y u v : UInt32}, u.toNat = x.toNat * factor → v.toNat = y.toNat * factor →
      (u < v ↔ x < y) := by
    intro x y u v hx hy
    rw [UInt32.lt_iff_toNat_lt, UInt32.lt_iff_toNat_lt, hx, hy, Nat.mul_lt_mul_right hpos]
  cases k with
  | equal => exact congrArg some (decide_eq_decide.mpr heq)
  | unequal => exact congrArg (some ∘ not) (decide_eq_decide.mpr heq)
  | greaterThan => exact congrArg some (decide_eq_decide.mpr (hlt hy hx))
  | lessThan => exact congrArg some (decide_eq_decide.mpr (hlt hx hy))
  | mask => exact absurd rfl hk

theorem order?_halfOperand (m : Memory 25) {c : Condition} (hsize : c.type.size ≠ 4)
    (haligned : isAligned c = true) :
    (halfOperand c).1.toNat < 2 ^ 16 ∧ (halfOperand c).2.toNat < 2 ^ 16 ∧
      order? (m.load 2 (halfword c.address) &&& ~~~(halfOperand c).2) (halfOperand c).1
          ((halfCode c.comparison).toNat - 0x28) =
        some (unsigned c.comparison (m.load c.type.size c.address) (c.value &&& c.type.mask)) := by
  obtain ⟨factor, hlane⟩ := inLane_lane m hsize haligned
  rw [halfOperand_eq]
  by_cases hk : c.comparison = .mask
  · have hhalf : m.load 2 (halfword c.address) &&& 0xFFFF = m.load 2 (halfword c.address) := by
      apply UInt32.toNat_inj.mp
      rw [UInt32.toNat_and]
      exact Nat.and_two_pow_sub_one_of_lt_two_pow (n := 16) (toNat_load_lt m (by decide) _)
    have hignored : (~~~(lane c).1 &&& 0xFFFF).toNat < 2 ^ 16 := by
      rw [UInt32.toNat_and]
      exact lt_of_le_of_lt Nat.and_le_right (by decide)
    rw [if_pos hk, hk]
    refine ⟨Nat.two_pow_pos 16, hignored, ?_⟩
    rw [and_not_masked hhalf]
    exact order?_of_scaled (k := .unequal) (by decide) hlane.pos hlane.common_eq (by simp)
  · rw [if_neg hk]
    exact ⟨hlane.moved_lt, hlane.ignored_lt,
      order?_of_scaled hk hlane.pos hlane.operand_eq hlane.moved_eq⟩

/-- The record opens a conditional that asks what the condition asks. -/
structure Tests (c : Condition) (r : Record) : Prop where
  code_ge : 0x20 ≤ (Replay.code r).toNat
  code_lt : (Replay.code r).toNat < 0x30
  left_even : r.left % 2 ≠ 1
  test?_eq : ∀ m : Memory 25,
    test? m r =
      some (unsigned c.comparison (m.load c.type.size c.address) (c.value &&& c.type.mask))

theorem codeWord_even {code : UInt32} (heven : code.toNat % 2 = 0) (hlt : code.toNat < 256)
    {a : Address} (ha : a.toNat % 2 = 0) : Record.codeWord code a % 2 ≠ 1 := by
  intro h
  have h := congrArg UInt32.toNat h
  rw [UInt32.toNat_mod, Record.toNat_codeWord heven hlt] at h
  change _ % 2 = 1 at h
  omega

theorem tests_halfHeader {c : Condition} (hsize : c.type.size ≠ 4) (haligned : isAligned c = true) :
    Tests c (halfHeader c) := by
  obtain ⟨heven, hge, hlt⟩ : (halfCode c.comparison).toNat % 2 = 0 ∧
      0x28 ≤ (halfCode c.comparison).toNat ∧
      (halfCode c.comparison).toNat < 0x30 := by cases c.comparison <;> decide
  have haddress := toNat_halfword c.address
  have hcode : Replay.code (halfHeader c) = halfCode c.comparison :=
    Replay.code_codeWord heven (by omega) _ _
  have hleft : Address.inRecord (halfHeader c).left &&& ~~~1 = halfword c.address := by
    rw [halfHeader, Replay.inRecord_codeWord heven (by omega)]
    apply UInt32.toNat_inj.mp
    rw [toNat_clearLow, Address.toNat_inRecord, ← halfword]
    omega
  refine ⟨by rw [hcode]; omega, by rw [hcode]; exact hlt, codeWord_even heven (by omega) ?_, ?_⟩
  · rw [← halfword]
    omega
  intro m
  obtain ⟨hvalue, hignored, horder⟩ := order?_halfOperand m hsize haligned
  obtain ⟨hhigh, hlow⟩ := halves hignored hvalue
  have hright : (halfHeader c).right = (halfOperand c).2 <<< 16 ||| (halfOperand c).1 := rfl
  rw [test?, hcode, if_neg (by omega), hleft, hright, hhigh, hlow]
  exact horder

theorem tests_wordHeader {c : Condition} (hsize : c.type.size = 4) (haligned : isAligned c = true)
    {code : UInt32} (hcode : wordCode? c.comparison = some code) :
    Tests c ⟨Record.codeWord code c.address, c.value &&& c.type.mask⟩ := by
  obtain ⟨hk, heven, hge, hlt, hkind⟩ : c.comparison ≠ .mask ∧ code.toNat % 2 = 0 ∧
      0x20 ≤ code.toNat ∧
      code.toNat < 0x28 ∧ code.toNat - 0x20 = (halfCode c.comparison).toNat - 0x28 := by
    cases hk : c.comparison <;> rw [hk] at hcode <;> cases hcode <;> decide
  have haddress : c.address.toNat % 4 = 0 := by simpa [isAligned, hsize] using haligned
  have hleft : (Address.inRecord (Record.codeWord code c.address) &&& ~~~1).inRecord =
      c.address.inRecord := by
    rw [Replay.inRecord_codeWord heven (by omega)]
    apply UInt32.toNat_inj.mp
    rw [Address.toNat_inRecord, toNat_clearLow, Address.toNat_inRecord]
    omega
  have hread : Replay.code ⟨Record.codeWord code c.address, c.value &&& c.type.mask⟩ = code :=
    Replay.code_codeWord heven (by omega) _ _
  refine ⟨by rw [hread]; exact hge, by rw [hread]; omega, codeWord_even heven (by omega) (by omega),
    ?_⟩
  intro m
  rw [test?, hread, if_pos hlt, m.load_congr 4 hleft, hkind, hsize]
  exact order?_of_scaled hk one_pos (mul_one _).symm (mul_one _).symm

theorem tests_header {c : Condition} {r : Record} (h : header c = .ok r) : Tests c r := by
  unfold header at h
  split_ifs at h with haligned hsize
  · split at h
    next hcode =>
      obtain rfl := Except.ok.inj h
      exact tests_wordHeader hsize (by simpa using haligned) hcode
    next => cases h
  · obtain rfl := Except.ok.inj h
    exact tests_halfHeader hsize (by simpa using haligned)

theorem unsigned_eq_holds {c : Condition} (h : (remarks c).warnings = []) (fpu : FloatUnit)
    (m : Memory 25) :
    unsigned c.comparison (m.load c.type.size c.address) (c.value &&& c.type.mask) =
      c.holds fpu m := by
  have hplain : (c.comparison.isOrdered && (c.type.isSigned || c.type.isFloat)) = false := by
    by_contra hne
    rw [remarks, if_pos (Bool.eq_true_of_not_eq_false hne)] at h
    cases h
  unfold unsigned Condition.holds
  cases hk : c.comparison with
  | equal | unequal | mask => rfl
  | lessThan | greaterThan =>
    obtain ⟨hsigned, hfloat⟩ : c.type.isSigned = false ∧ c.type.isFloat = false := by
      simpa [hk, Comparison.isOrdered] using hplain
    simp [Comparison.test, ValueType.less, hsigned, hfloat]

end Gecko

end PatchCode
