import Mathlib.Tactic
import PatchCode.Literal.Binary

/-! Rounding to a binary format. Encodings stand in the order of their values, so the nearest one to
a number is found by comparing the number with the midpoints on both sides. The arithmetic of the
rounding, in units of the least positive value, gives this encoding for every fraction, and a tie
goes to the even one. -/

namespace PatchCode.Literal

/-- A rounded quotient is off by at most one half, and by exactly one half only if it is even. -/
theorem roundDiv_spec (n : Nat) {d : Nat} (hd : 0 < d) :
    (2 * (roundDiv n d * d) ≤ 2 * n + d ∧
      (2 * (roundDiv n d * d) = 2 * n + d → Even (roundDiv n d))) ∧
      2 * n ≤ 2 * (roundDiv n d * d) + d ∧
      (2 * n = 2 * (roundDiv n d * d) + d → Even (roundDiv n d)) := by
  have hmod := Nat.mod_lt n hd
  have hdiv : n / d * d + n % d = n := Nat.div_add_mod' n d
  unfold roundDiv
  split_ifs with h
  · refine ⟨⟨by omega, fun heq => by omega⟩, by omega, fun heq => ?_⟩
    rw [Nat.even_iff]
    omega
  · have hsucc : (n / d + 1) * d = n / d * d + d := Nat.succ_mul _ _
    refine ⟨⟨by omega, fun heq => ?_⟩, by omega, fun heq => by omega⟩
    rw [Nat.even_iff]
    omega

namespace BinaryFormat

variable (f : BinaryFormat)

/-- An encoding is an exponent and a significand, which has its leading bit unless the exponent is
the least. -/
structure Splits (s m : Nat) : Prop where
  le : m ≤ 2 ^ (f.fractionBits + 1)
  normal : s = 0 ∨ 2 ^ f.fractionBits ≤ m

variable {f}

theorem units_of_splits {s m : Nat} (h : f.Splits s m) :
    f.units (s * 2 ^ f.fractionBits + m) = m * 2 ^ s := by
  obtain ⟨hle, hnormal⟩ := h
  have hpos : 0 < 2 ^ f.fractionBits := by positivity
  rw [pow_succ] at hle
  simp only [units, Nat.shiftRight_eq_div_pow, Nat.one_shiftLeft]
  rcases Nat.lt_or_ge m (2 ^ f.fractionBits) with hm | hm
  · obtain rfl : s = 0 := hnormal.resolve_right (by omega)
    simp [Nat.div_eq_of_lt hm, Nat.mod_eq_of_lt hm]
  · obtain ⟨r, rfl⟩ := Nat.exists_eq_add_of_le hm
    have hsplit : s * 2 ^ f.fractionBits + (2 ^ f.fractionBits + r) =
        r + 2 ^ f.fractionBits * (s + 1) := by ring
    rw [hsplit, Nat.add_mul_div_left _ _ hpos, Nat.add_mul_mod_self_left]
    rcases Nat.lt_or_ge r (2 ^ f.fractionBits) with hr | hr
    · rw [Nat.div_eq_of_lt hr, Nat.mod_eq_of_lt hr, Nat.zero_add]
      exact Nat.shiftLeft_eq _ _
    · obtain rfl : r = 2 ^ f.fractionBits := by omega
      rw [Nat.div_self hpos, Nat.mod_self, Nat.add_comm 1]
      change (2 ^ f.fractionBits + 0) <<< (s + 1) = _
      rw [Nat.shiftLeft_eq]
      ring

theorem exists_splits (f : BinaryFormat) (k : Nat) :
    ∃ s m, k = s * 2 ^ f.fractionBits + m ∧ m < 2 ^ (f.fractionBits + 1) ∧ f.Splits s m := by
  have hpos : 0 < 2 ^ f.fractionBits := by positivity
  have hmod := Nat.mod_lt k hpos
  have hdiv : k / 2 ^ f.fractionBits * 2 ^ f.fractionBits + k % 2 ^ f.fractionBits = k :=
    Nat.div_add_mod' _ _
  rw [pow_succ]
  cases hs : k / 2 ^ f.fractionBits with
  | zero =>
    rw [hs] at hdiv
    exact ⟨0, k, by omega, by omega, by rw [pow_succ]; omega, .inl rfl⟩
  | succ s =>
    rw [hs, Nat.succ_mul] at hdiv
    exact ⟨s, 2 ^ f.fractionBits + k % 2 ^ f.fractionBits, by omega, by omega,
      by rw [pow_succ]; omega, .inr (Nat.le_add_right _ _)⟩

/-- Within one exponent the values stand evenly. -/
theorem units_succ {s m : Nat} (h : f.Splits s m) (hm : m < 2 ^ (f.fractionBits + 1)) :
    f.units (s * 2 ^ f.fractionBits + m + 1) = f.units (s * 2 ^ f.fractionBits + m) + 2 ^ s := by
  have hnext : f.Splits s (m + 1) := ⟨hm, h.normal.imp_right fun hle => hle.trans m.le_succ⟩
  rw [units_of_splits h, Nat.add_assoc, units_of_splits hnext]
  ring

theorem units_strictMono (f : BinaryFormat) : StrictMono f.units := by
  refine strictMono_nat_of_lt_succ fun k => ?_
  obtain ⟨s, m, rfl, hm, h⟩ := f.exists_splits k
  rw [units_succ h hm]
  exact Nat.lt_add_of_pos_right (by positivity)

/-- A short enough significand times a power of two has an encoding. -/
theorem exists_units (f : BinaryFormat) {m : Nat} (hm : m ≤ 2 ^ (f.fractionBits + 1)) (s : Nat) :
    ∃ k, f.units k = m * 2 ^ s := by
  induction s generalizing m with
  | zero => exact ⟨_, units_of_splits (s := 0) ⟨hm, .inl rfl⟩⟩
  | succ s ih =>
    rcases Nat.lt_or_ge m (2 ^ f.fractionBits) with hlt | hge
    · obtain ⟨k, hk⟩ := ih (m := 2 * m) (by rw [pow_succ]; omega)
      exact ⟨k, hk.trans (by ring)⟩
    · exact ⟨_, units_of_splits ⟨hm, .inr hge⟩⟩

/-- The value of an encoding. That of infinity is the power of two behind the largest finite
value. -/
def value (f : BinaryFormat) (k : Nat) : ℚ := f.units k / 2 ^ f.depth

def midpoint (f : BinaryFormat) (k : Nat) : ℚ := (f.value k + f.value (k + 1)) / 2

theorem value_strictMono (f : BinaryFormat) : StrictMono f.value := by
  intro j k hjk
  have hunits : (f.units j : ℚ) < f.units k := by exact_mod_cast f.units_strictMono hjk
  exact div_lt_div_of_pos_right hunits (by positivity)

theorem value_lt_midpoint (f : BinaryFormat) (k : Nat) : f.value k < f.midpoint k := by
  have := f.value_strictMono k.lt_succ_self
  rw [midpoint]
  linarith

theorem midpoint_lt_value (f : BinaryFormat) (k : Nat) : f.midpoint k < f.value (k + 1) := by
  have := f.value_strictMono k.lt_succ_self
  rw [midpoint]
  linarith

theorem midpoint_strictMono (f : BinaryFormat) : StrictMono f.midpoint :=
  strictMono_nat_of_lt_succ fun k => (f.midpoint_lt_value k).trans (f.value_lt_midpoint (k + 1))

/-- No encoding is nearer to the number, and of two that are equally near it is the even one. -/
structure Nearest (f : BinaryFormat) (q : ℚ) (k : Nat) : Prop where
  le : k ≤ f.infinity
  near : ∀ j ≤ f.infinity, |f.value k - q| ≤ |f.value j - q|
  even : ∀ j ≤ f.infinity, |f.value j - q| = |f.value k - q| → j = k ∨ Even k

section

variable {a b q : ℚ}

theorem abs_sub_le_left_iff (h : a < b) : |a - q| ≤ |b - q| ↔ q ≤ (a + b) / 2 := by
  rw [← sq_le_sq]
  constructor <;> intro hle <;> nlinarith

theorem abs_sub_le_right_iff (h : a < b) : |b - q| ≤ |a - q| ↔ (a + b) / 2 ≤ q := by
  rw [← sq_le_sq]
  constructor <;> intro hle <;> nlinarith

theorem abs_sub_eq_iff (h : a < b) : |a - q| = |b - q| ↔ (a + b) / 2 = q := by
  rw [le_antisymm_iff, abs_sub_le_left_iff h, abs_sub_le_right_iff h, le_antisymm_iff, and_comm]

end

variable {q : ℚ} {k : Nat}

/-- Only the midpoints on both sides count. -/
theorem nearest_iff : f.Nearest q k ↔ k ≤ f.infinity ∧
    (∀ j, j + 1 = k → f.midpoint j ≤ q ∧ (f.midpoint j = q → Even k)) ∧
      (k < f.infinity → q ≤ f.midpoint k ∧ (f.midpoint k = q → Even k)) := by
  constructor
  · rintro ⟨hle, hnear, heven⟩
    refine ⟨hle, ?_, fun hlt => ?_⟩
    · rintro j rfl
      have hstep := f.value_strictMono j.lt_succ_self
      have hj : j ≤ f.infinity := j.le_succ.trans hle
      refine ⟨(abs_sub_le_right_iff hstep).mp (hnear j hj), fun hq => ?_⟩
      exact (heven j hj ((abs_sub_eq_iff hstep).mpr hq)).resolve_left (by omega)
    · have hstep := f.value_strictMono k.lt_succ_self
      refine ⟨(abs_sub_le_left_iff hstep).mp (hnear (k + 1) hlt), fun hq => ?_⟩
      exact (heven (k + 1) hlt ((abs_sub_eq_iff hstep).mpr hq).symm).resolve_left (by omega)
  · rintro ⟨hle, hbelow, habove⟩
    -- What is further away than a neighbour has its midpoint further away too.
    have hfar : ∀ j ≤ f.infinity, |f.value k - q| ≤ |f.value j - q| ∧
        (|f.value j - q| = |f.value k - q| → j = k ∨ Even k) := by
      intro j hj
      rcases lt_trichotomy j k with hlt | rfl | hlt
      · obtain ⟨i, rfl⟩ : ∃ i, k = i + 1 := ⟨k - 1, by omega⟩
        obtain ⟨hmid, htie⟩ := hbelow i rfl
        have hmono : (f.value j + f.value (i + 1)) / 2 ≤ f.midpoint i := by
          have := f.value_strictMono.monotone (Nat.le_of_lt_succ hlt)
          rw [midpoint]
          linarith
        refine ⟨(abs_sub_le_right_iff (f.value_strictMono hlt)).mpr (hmono.trans hmid), fun heq =>
          .inr (htie ?_)⟩
        rw [abs_sub_eq_iff (f.value_strictMono hlt)] at heq
        exact le_antisymm hmid (heq.symm.le.trans hmono)
      · exact ⟨le_rfl, fun _ => .inl rfl⟩
      · obtain ⟨hmid, htie⟩ := habove (hlt.trans_le hj)
        have hmono : f.midpoint k ≤ (f.value k + f.value j) / 2 := by
          have := f.value_strictMono.monotone (Nat.succ_le_of_lt hlt)
          rw [midpoint]
          linarith
        refine ⟨(abs_sub_le_left_iff (f.value_strictMono hlt)).mpr (hmid.trans hmono), fun heq =>
          .inr (htie ?_)⟩
        rw [eq_comm, abs_sub_eq_iff (f.value_strictMono hlt)] at heq
        exact le_antisymm (hmono.trans heq.le) hmid
    exact ⟨hle, fun j hj => (hfar j hj).1, fun j hj => (hfar j hj).2⟩

theorem Nearest.mono {p : ℚ} {j : Nat} (hj : f.Nearest p j) (hk : f.Nearest q k)
    (h : p ≤ q) : j ≤ k := by
  by_contra! hlt
  obtain ⟨i, rfl⟩ : ∃ i, j = i + 1 := ⟨j - 1, by omega⟩
  obtain ⟨hlow, hodd⟩ := (nearest_iff.mp hj).2.1 i rfl
  obtain ⟨hhigh, heven⟩ := (nearest_iff.mp hk).2.2 (hlt.trans_le hj.le)
  have hmid : f.midpoint k ≤ f.midpoint i := f.midpoint_strictMono.monotone (Nat.le_of_lt_succ hlt)
  -- Both numbers are one midpoint, whose two sides would both be even.
  obtain rfl : k = i := f.midpoint_strictMono.injective (by linarith)
  have hboth := Nat.even_add_one.mp (hodd (by linarith))
  exact hboth (heven (by linarith))

theorem Nearest.unique {j : Nat} (hj : f.Nearest q j) (hk : f.Nearest q k) : j = k :=
  le_antisymm (hj.mono hk le_rfl) (hk.mono hj le_rfl)

/-- Numbers from the value of infinity on are rounded to it. -/
theorem nearest_infinity (h : f.value f.infinity ≤ q) : f.Nearest q f.infinity := by
  refine nearest_iff.mpr ⟨le_rfl, fun j hj => ?_, fun hlt => absurd hlt (lt_irrefl _)⟩
  have hlt : f.midpoint j < q := (f.midpoint_lt_value j).trans_le (hj ▸ h)
  exact ⟨hlt.le, fun heq => absurd heq hlt.ne⟩

theorem nearest_zero (h : q ≤ f.midpoint 0) : f.Nearest q 0 :=
  nearest_iff.mpr ⟨Nat.zero_le _, fun j hj => absurd hj (Nat.succ_ne_zero j), fun _ =>
    ⟨h, fun _ => Even.zero⟩⟩

section

variable {n d s : Nat}

/-- What is shifted has all the bits of a significand left. -/
theorem le_div_of_shifted (d : Nat) (hs : s = (n / d).log2 - f.fractionBits) (hpos : 0 < s) :
    2 ^ f.fractionBits ≤ n / (d * 2 ^ s) := by
  have hne : n / d ≠ 0 := by
    intro h0
    rw [h0, Nat.log2_zero] at hs
    omega
  rw [← Nat.div_div_eq_div_mul, Nat.le_div_iff_mul_le (by positivity), ← pow_add]
  exact (Nat.pow_le_pow_right (by decide) (by omega)).trans (Nat.log2_self_le hne)

theorem splits_roundDiv (d : Nat) (hs : s = (n / d).log2 - f.fractionBits) :
    f.Splits s (roundDiv n (d * 2 ^ s)) := by
  have hbounds : n / (d * 2 ^ s) ≤ roundDiv n (d * 2 ^ s) ∧
      roundDiv n (d * 2 ^ s) ≤ n / (d * 2 ^ s) + 1 := by
    unfold roundDiv
    split_ifs <;> omega
  constructor
  · have hlt : n / (d * 2 ^ s) < 2 ^ (f.fractionBits + 1) := by
      rw [← Nat.div_div_eq_div_mul, Nat.div_lt_iff_lt_mul (by positivity), ← pow_add]
      exact Nat.lt_log2_self.trans_le (Nat.pow_le_pow_right (by decide) (by omega))
    omega
  · rcases Nat.eq_zero_or_pos s with h0 | hpos
    · exact .inl h0
    · exact .inr ((le_div_of_shifted d hs hpos).trans hbounds.1)

def roundUnits (f : BinaryFormat) (n d : Nat) : Nat :=
  let s := (n / d).log2 - f.fractionBits
  s * 2 ^ f.fractionBits + roundDiv n (d * 2 ^ s)

theorem round_eq (f : BinaryFormat) (n d : Nat) :
    f.round n d = min f.infinity (f.roundUnits (n * 2 ^ f.depth) d) := by
  simp only [round, roundUnits, Nat.shiftLeft_eq]

theorem even_add_mul (hf : 0 < f.fractionBits) (s m : Nat) :
    Even (s * 2 ^ f.fractionBits + m) ↔ Even m := by
  have heven : Even (s * 2 ^ f.fractionBits) := (Nat.even_pow.mpr ⟨even_two, hf.ne'⟩).mul_left s
  simp [Nat.even_add, heven]

/-- The encoding in front of the rounded one is not nearer. -/
theorem roundUnits_below (hf : 0 < f.fractionBits) (hd : 0 < d) {j : Nat}
    (hj : j + 1 = f.roundUnits n d) :
    (f.units j + f.units (j + 1)) * d ≤ 2 * n ∧
    ((f.units j + f.units (j + 1)) * d = 2 * n → Even (j + 1)) := by
  obtain ⟨s, hs⟩ : ∃ s, s = (n / d).log2 - f.fractionBits := ⟨_, rfl⟩
  have hsplits := splits_roundDiv d hs
  obtain ⟨⟨hle, hodd⟩, -⟩ := roundDiv_spec n (by positivity : 0 < d * 2 ^ s)
  have hshift := le_div_of_shifted d hs
  rw [roundUnits, ← hs] at hj
  generalize roundDiv n (d * 2 ^ s) = m at *
  rw [hj, units_of_splits hsplits, even_add_mul hf]
  by_cases hfirst : 0 < s ∧ m = 2 ^ f.fractionBits
  · -- The first significand of its exponent: the number is not below it.
    obtain ⟨hpos, rfl⟩ := hfirst
    have hge : 2 ^ f.fractionBits * 2 ^ s * d ≤ n := by
      rw [mul_assoc, mul_comm (2 ^ s), ← Nat.le_div_iff_mul_le (by positivity)]
      exact hshift hpos
    have hlt : f.units j * d < 2 ^ f.fractionBits * 2 ^ s * d := by
      rw [← units_of_splits hsplits, ← hj]
      exact Nat.mul_lt_mul_of_pos_right (f.units_strictMono j.lt_succ_self) hd
    rw [add_mul]
    exact ⟨by omega, fun heq => by omega⟩
  · obtain ⟨l, rfl⟩ : ∃ l, m = l + 1 := by
      refine ⟨m - 1, ?_⟩
      have := hsplits.normal
      have : 0 < 2 ^ f.fractionBits := by positivity
      rcases Nat.eq_zero_or_pos m with rfl | hpos
      · rcases hsplits.normal with rfl | hge <;> omega
      · omega
    have hbefore : f.Splits s l := by
      refine ⟨l.le_succ.trans hsplits.le, ?_⟩
      have := hsplits.normal
      omega
    have hunits : f.units j = l * 2 ^ s := by
      rw [← units_of_splits hbefore]
      exact congrArg _ (by omega)
    have hsum : (l * 2 ^ s + (l + 1) * 2 ^ s) * d + d * 2 ^ s = 2 * ((l + 1) * (d * 2 ^ s)) := by
      ring
    rw [hunits]
    exact ⟨by omega, fun heq => hodd (by omega)⟩

/-- The encoding behind the rounded one is not nearer. -/
theorem roundUnits_above (hf : 0 < f.fractionBits) (hd : 0 < d) :
    2 * n ≤ (f.units (f.roundUnits n d) + f.units (f.roundUnits n d + 1)) * d ∧
      ((f.units (f.roundUnits n d) + f.units (f.roundUnits n d + 1)) * d = 2 * n →
        Even (f.roundUnits n d)) := by
  obtain ⟨s, hs⟩ : ∃ s, s = (n / d).log2 - f.fractionBits := ⟨_, rfl⟩
  have hsplits := splits_roundDiv d hs
  obtain ⟨-, hle, hodd⟩ := roundDiv_spec n (by positivity : 0 < d * 2 ^ s)
  rw [roundUnits, ← hs]
  generalize roundDiv n (d * 2 ^ s) = m at *
  rw [even_add_mul hf]
  rcases hsplits.le.lt_or_eq with hlt | rfl
  · have hsum : (m * 2 ^ s + (m * 2 ^ s + 2 ^ s)) * d = 2 * (m * (d * 2 ^ s)) + d * 2 ^ s := by ring
    rw [units_succ hsplits hlt, units_of_splits hsplits, hsum]
    exact ⟨hle, fun heq => hodd heq.symm⟩
  · -- A carry out of the significand: the next exponent has wider steps.
    have hcarry : f.Splits (s + 1) (2 ^ f.fractionBits) :=
      ⟨Nat.pow_le_pow_right (by decide) (Nat.le_succ _), .inr le_rfl⟩
    have hplace : s * 2 ^ f.fractionBits + 2 ^ (f.fractionBits + 1) =
        (s + 1) * 2 ^ f.fractionBits + 2 ^ f.fractionBits := by
      ring
    have hsum :
        (2 ^ f.fractionBits * 2 ^ (s + 1) + (2 ^ f.fractionBits * 2 ^ (s + 1) + 2 ^ (s + 1))) * d =
        2 * (2 ^ (f.fractionBits + 1) * (d * 2 ^ s)) + 2 * (d * 2 ^ s) := by ring
    rw [hplace, units_succ hcarry (Nat.pow_lt_pow_succ (by decide)), units_of_splits hcarry, hsum]
    exact ⟨by omega, fun _ => Nat.even_pow.mpr ⟨even_two, Nat.succ_ne_zero _⟩⟩

theorem midpoint_eq (f : BinaryFormat) (j : Nat) :
    f.midpoint j = ((f.units j + f.units (j + 1) : Nat) : ℚ) / (2 * 2 ^ f.depth : Nat) := by
  rw [midpoint, value, value]
  push_cast
  field_simp

theorem midpoint_le_div_iff (hd : 0 < d) (j : Nat) :
    f.midpoint j ≤ n / d ↔ (f.units j + f.units (j + 1)) * d ≤ 2 * (n * 2 ^ f.depth) := by
  rw [midpoint_eq, div_le_div_iff₀ (by positivity) (by exact_mod_cast hd), Nat.mul_left_comm]
  exact_mod_cast Iff.rfl

theorem div_le_midpoint_iff (hd : 0 < d) (j : Nat) :
    n / d ≤ f.midpoint j ↔ 2 * (n * 2 ^ f.depth) ≤ (f.units j + f.units (j + 1)) * d := by
  rw [midpoint_eq, div_le_div_iff₀ (by exact_mod_cast hd) (by positivity), Nat.mul_left_comm]
  exact_mod_cast Iff.rfl

theorem midpoint_eq_div_iff (hd : 0 < d) (j : Nat) :
    f.midpoint j = n / d ↔ (f.units j + f.units (j + 1)) * d = 2 * (n * 2 ^ f.depth) := by
  rw [le_antisymm_iff, midpoint_le_div_iff hd, div_le_midpoint_iff hd, ← le_antisymm_iff]

/-- Every fraction is rounded to the encoding nearest to it. -/
theorem nearest_round (hf : 0 < f.fractionBits) (hd : 0 < d) : f.Nearest (n / d) (f.round n d) := by
  have hbelow : ∀ j, j + 1 = f.roundUnits (n * 2 ^ f.depth) d →
      f.midpoint j ≤ n / d ∧ (f.midpoint j = n / d → Even (j + 1)) := by
    intro j hj
    rw [midpoint_le_div_iff hd, midpoint_eq_div_iff hd]
    exact roundUnits_below hf hd hj
  have habove := roundUnits_above hf hd (n := n * 2 ^ f.depth)
  rw [← div_le_midpoint_iff hd, ← midpoint_eq_div_iff hd] at habove
  rw [round_eq]
  rcases le_or_gt (f.roundUnits (n * 2 ^ f.depth) d) f.infinity with hle | hlt
  · rw [Nat.min_eq_right hle]
    exact nearest_iff.mpr ⟨hle, fun j hj => hj ▸ hbelow j hj, fun _ => habove⟩
  · rw [Nat.min_eq_left hlt.le]
    obtain ⟨j, hj⟩ : ∃ j, j + 1 = f.roundUnits (n * 2 ^ f.depth) d :=
      ⟨_, Nat.sub_add_cancel (Nat.one_le_of_lt hlt)⟩
    apply nearest_infinity
    calc f.value f.infinity ≤ f.value j := f.value_strictMono.monotone (by omega)
      _ ≤ f.midpoint j := (f.value_lt_midpoint j).le
      _ ≤ n / d := (hbelow j hj).1

end

end BinaryFormat

end PatchCode.Literal
