import Mathlib.Tactic
import PatchCode.Proofs.Rounding

/-! Rounding twice, to a wide format and from there to a narrow one. Every midpoint of the narrow
format is a value of the wide one, so the first rounding never crosses it. It can reach it, and then
the tie goes to the even side whichever side the number was on: this is the only way in which
rounding twice differs from rounding once. -/

namespace PatchCode.Literal.BinaryFormat

variable {f g : BinaryFormat} {q : ℚ} {wide k : Nat}

def Refines (f g : BinaryFormat) : Prop :=
  ∀ k < g.infinity, ∃ j ≤ f.infinity, f.value j = g.midpoint k

/-- The value in the wide format is halfway between two of the narrow one, and the number is on the
side of the odd one. -/
def Misleads (f g : BinaryFormat) (q : ℚ) (wide : Nat) : Prop :=
  ∃ k < g.infinity, f.value wide = g.midpoint k ∧
    (q < f.value wide ∧ Odd k ∨ f.value wide < q ∧ Even k)

theorem refines_of_lt (hbits : g.fractionBits < f.fractionBits) (hdepth : g.depth < f.depth)
    (hinfinity : g.value g.infinity ≤ f.value f.infinity) : Refines f g := by
  intro k hk
  obtain ⟨s, m, rfl, hm, hsplits⟩ := g.exists_splits k
  -- The sum of two neighbours has one bit more than their significands.
  have hsum : g.units (s * 2 ^ g.fractionBits + m) + g.units (s * 2 ^ g.fractionBits + m + 1) =
      (2 * m + 1) * 2 ^ s := by
    rw [units_succ hsplits hm, units_of_splits hsplits]
    ring
  have hsignificand : 2 * m + 1 ≤ 2 ^ (f.fractionBits + 1) := by
    have hle : 2 ^ (g.fractionBits + 1) * 2 ≤ 2 ^ (f.fractionBits + 1) := by
      rw [← pow_succ]
      exact Nat.pow_le_pow_right (by decide) (by omega)
    omega
  obtain ⟨j, hj⟩ := f.exists_units hsignificand (s + (f.depth - g.depth - 1))
  have hvalue : f.value j = g.midpoint (s * 2 ^ g.fractionBits + m) := by
    have hpow : (2 : ℚ) ^ f.depth = 2 ^ (f.depth - g.depth - 1) * (2 * 2 ^ g.depth) := by
      rw [← pow_succ', ← pow_add]
      congr 1
      omega
    rw [value, midpoint_eq, hsum, hj, hpow]
    push_cast
    rw [pow_add]
    field_simp
  refine ⟨j, (f.value_strictMono.lt_iff_lt.mp ?_).le, hvalue⟩
  calc f.value j = g.midpoint (s * 2 ^ g.fractionBits + m) := hvalue
    _ < g.value (s * 2 ^ g.fractionBits + m + 1) := g.midpoint_lt_value _
    _ ≤ g.value g.infinity := g.value_strictMono.monotone hk
    _ ≤ f.value f.infinity := hinfinity

/-- No other value stands between a number and the one it is rounded to. -/
theorem Nearest.le_of_le {j : Nat} (h : f.Nearest q k) (hj : j ≤ f.infinity) (hq : q ≤ f.value j) :
    f.value k ≤ f.value j := by
  have hnear := h.near j hj
  rw [abs_of_nonneg (sub_nonneg.mpr hq)] at hnear
  have := (le_abs_self _).trans hnear
  linarith

theorem Nearest.ge_of_ge {j : Nat} (h : f.Nearest q k) (hj : j ≤ f.infinity) (hq : f.value j ≤ q) :
    f.value j ≤ f.value k := by
  have hnear := h.near j hj
  rw [abs_sub_comm, abs_sub_comm (f.value j), abs_of_nonneg (sub_nonneg.mpr hq)] at hnear
  have := (le_abs_self _).trans hnear
  linarith

theorem not_misleads_of_nearest (hk : g.Nearest (f.value wide) k) (hq : g.Nearest q k) :
    ¬Misleads f g q wide := by
  rintro ⟨j, hj, hvalue, hside⟩
  rcases Nat.lt_or_ge j k with hlt | hge
  · -- The tie went up, so the upper neighbour is the even one.
    obtain ⟨i, rfl⟩ : ∃ i, k = i + 1 := ⟨k - 1, by omega⟩
    have hmono : g.midpoint j ≤ g.midpoint i :=
      g.midpoint_strictMono.monotone (Nat.le_of_lt_succ hlt)
    obtain ⟨hmid, htie⟩ := (nearest_iff.mp hk).2.1 i rfl
    have hq := ((nearest_iff.mp hq).2.1 i rfl).1
    obtain rfl : j = i := g.midpoint_strictMono.injective (by linarith)
    rcases hside with ⟨hbelow, -⟩ | ⟨-, heven⟩
    · linarith
    · exact (Nat.even_add_one.mp (htie (by linarith))) heven
  · have hmono : g.midpoint k ≤ g.midpoint j := g.midpoint_strictMono.monotone hge
    obtain ⟨hmid, htie⟩ := (nearest_iff.mp hk).2.2 (hge.trans_lt hj)
    have hq := ((nearest_iff.mp hq).2.2 (hge.trans_lt hj)).1
    obtain rfl : k = j := g.midpoint_strictMono.injective (by linarith)
    rcases hside with ⟨-, hodd⟩ | ⟨habove, -⟩
    · exact Nat.not_even_iff_odd.mpr hodd (htie (by linarith))
    · linarith

theorem nearest_of_not_misleads (hfine : Refines f g) (hwide : f.Nearest q wide)
    (hk : g.Nearest (f.value wide) k) (h : ¬Misleads f g q wide) : g.Nearest q k := by
  obtain ⟨hle, hbelow, habove⟩ := nearest_iff.mp hk
  refine nearest_iff.mpr ⟨hle, fun i hi => ?_, fun hlt => ?_⟩
  · obtain ⟨hmid, htie⟩ := hbelow i hi
    rcases le_or_gt (f.value wide) q with hge | hlt
    · exact ⟨hmid.trans hge, fun heq => htie (le_antisymm hmid (hge.trans heq.symm.le))⟩
    · have hstrict : g.midpoint i < q := by
        by_contra! hcross
        obtain ⟨j, hj, hvalue⟩ := hfine i (by omega)
        have hreach : f.value wide = g.midpoint i :=
          le_antisymm (hvalue ▸ hwide.le_of_le hj (hvalue ▸ hcross)) hmid
        have heven : Even (i + 1) := hi ▸ htie hreach.symm
        exact h ⟨i, by omega, hreach,
          .inl ⟨hlt, Nat.not_even_iff_odd.mp (Nat.even_add_one.mp heven)⟩⟩
      exact ⟨hstrict.le, fun heq => absurd heq hstrict.ne⟩
  · obtain ⟨hmid, htie⟩ := habove hlt
    rcases le_or_gt q (f.value wide) with hge | hgt
    · exact ⟨hge.trans hmid, fun heq => htie (le_antisymm (heq.le.trans hge) hmid)⟩
    · have hstrict : q < g.midpoint k := by
        by_contra! hcross
        obtain ⟨j, hj, hvalue⟩ := hfine k hlt
        have hreach : f.value wide = g.midpoint k :=
          le_antisymm hmid (hvalue ▸ hwide.ge_of_ge hj (hvalue ▸ hcross))
        exact h ⟨k, hlt, hreach, .inr ⟨hgt, htie hreach.symm⟩⟩
      exact ⟨hstrict.le, fun heq => absurd heq hstrict.ne'⟩

/-- Rounding twice gives the nearest value of the narrow format, unless a tie misleads it. -/
theorem nearest_twice_iff (hfine : Refines f g) (hwide : f.Nearest q wide)
    (hk : g.Nearest (f.value wide) k) :
    g.Nearest q k ↔ ¬Misleads f g q wide :=
  ⟨not_misleads_of_nearest hk, nearest_of_not_misleads hfine hwide hk⟩

/-- A conversion rounds the magnitude and keeps the sign. -/
theorem exists_convert (hbits : 0 < g.fractionBits)
    (hinfinity : g.value g.infinity ≤ f.value f.infinity) (hwide : wide ≤ f.infinity)
    (hsign : wide < f.signBit) :
    ∃ k, g.Nearest (f.value wide) k ∧
      ∀ sign, f.convert g (sign * f.signBit + wide) = sign * g.signBit + k := by
  have hmod : ∀ sign, (sign * f.signBit + wide) % f.signBit = wide := by
    intro sign
    rw [Nat.mul_add_mod', Nat.mod_eq_of_lt hsign]
  have hdiv : ∀ sign, (sign * f.signBit + wide) / f.signBit = sign := by
    intro sign
    rw [Nat.mul_comm, Nat.mul_add_div (by omega), Nat.div_eq_of_lt hsign, Nat.add_zero]
  simp only [convert, hmod, hdiv]
  rcases hwide.lt_or_eq with hlt | rfl
  · have hround := nearest_round (n := f.units wide) (d := 2 ^ f.depth) hbits (by positivity)
    refine ⟨_, ?_, fun sign => by rw [if_pos hlt]⟩
    rw [Nat.one_shiftLeft, value]
    exact_mod_cast hround
  · exact ⟨g.infinity, nearest_infinity hinfinity, by simp⟩

theorem value_infinity (h : 2 ≤ f.exponentBits) :
    f.value f.infinity = 2 ^ 2 ^ (f.exponentBits - 1) := by
  obtain ⟨e, he⟩ : ∃ e, f.exponentBits = e + 2 := ⟨_, (Nat.sub_add_cancel h).symm⟩
  have hpos : 0 < 2 ^ e := by positivity
  have hcount : 1 <<< f.exponentBits - 1 = 2 ^ (e + 2) - 2 + 1 := by
    rw [Nat.one_shiftLeft, he, pow_add]
    omega
  have hdepth : f.fractionBits + (2 ^ (e + 2) - 2) = 2 ^ (e + 1) + f.depth := by
    have hhalf : e + 2 - 1 = e + 1 := by omega
    rw [depth, Nat.one_shiftLeft, he, hhalf, pow_succ 2 (e + 1), pow_succ 2 e]
    omega
  have hunits : f.units f.infinity = 2 ^ (2 ^ (e + 1) + f.depth) := by
    rw [infinity, Nat.shiftLeft_eq, hcount, Nat.add_mul, Nat.one_mul, ← hdepth,
      Nat.pow_add 2 f.fractionBits]
    exact units_of_splits ⟨Nat.pow_le_pow_right (by decide) (Nat.le_succ _), .inr le_rfl⟩
  rw [value, hunits, he]
  push_cast
  rw [pow_add, mul_div_cancel_right₀ _ (by positivity)]

theorem value_infinity_le : single.value single.infinity ≤ double.value double.infinity := by
  rw [value_infinity (by decide), value_infinity (by decide)]
  exact pow_le_pow_right₀ one_le_two (by decide)

theorem refines_double_single : Refines double single :=
  refines_of_lt (by decide) (by decide) value_infinity_le

end PatchCode.Literal.BinaryFormat
