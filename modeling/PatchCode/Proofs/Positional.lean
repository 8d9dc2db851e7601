import Mathlib.Data.Nat.Digits.Defs
import Mathlib.Tactic
import PatchCode.Text.Radix

/-! Positional notation. A digit has the value of its place in an alphabet, and a text of digits
stands for the sum of their values times powers of the radix; the reader of digits accepts exactly
the texts of one or more digits and gives that number, however many digits there are. -/

namespace PatchCode.Text

def digitAlphabet : List Char := "0123456789abcdef".toList

/-- The value of a digit, whose letters may have either case; sixteen for any other character. -/
def digitValue (c : Char) : Nat := digitAlphabet.idxOf c.toLower

/-- The number that digits stand for, the most significant first. -/
def positional (radix : Nat) (cs : List Char) : Nat := .ofDigits radix (cs.map digitValue).reverse

theorem digit?_sixteen (c : Char) :
    digit? 16 c = if digitValue c < 16 then some (digitValue c) else none := by
  rcases Nat.lt_or_ge c.toNat 128 with h | h
  · have hascii : ∀ n < 128, digit? 16 (.ofNat n) =
        if digitValue (.ofNat n) < 16 then some (digitValue (.ofNat n)) else none := by
          decide +kernel
    simpa only [Char.ofNat_toNat] using hascii c.toNat h
  · -- All digits are below 128, so no range of the reader has the character.
    have hout : ∀ a b : Char, b.toNat < 128 → ¬(a ≤ c ∧ c ≤ b) := by
      intro a b hb hc
      have : c.toNat ≤ b.toNat := hc.2
      omega
    have hlower : c.toLower = c := dif_neg (hout 'A' 'Z' (by decide))
    have hvalue : ¬digitValue c < 16 := by
      intro hlt
      rw [digitValue, hlower] at hlt
      have hall : digitAlphabet.all (·.toNat < 128) = true := by decide
      have := List.all_eq_true.mp hall c (List.idxOf_lt_length_iff.mp hlt)
      simp only [decide_eq_true_eq] at this
      omega
    rw [digit?, if_neg (hout _ _ (by decide)), if_neg (hout _ _ (by decide)),
      if_neg (hout _ _ (by decide)), if_neg hvalue]
    rfl

theorem toLower_cases (c : Char) : c.toLower = c ∧ ¬(65 ≤ c.toNat ∧ c.toNat ≤ 90) ∨
    c.toLower.toNat = c.toNat + 32 ∧ 65 ≤ c.toNat ∧ c.toNat ≤ 90 := by
  by_cases h : c.val ≥ 'A'.val ∧ c.val ≤ 'Z'.val
  · have hlow : 65 ≤ c.toNat := UInt32.le_iff_toNat_le.mp h.1
    have hhigh : c.toNat ≤ 90 := UInt32.le_iff_toNat_le.mp h.2
    have hlower : c.toLower.toNat = (c.toNat + 32) % 2 ^ 32 := congrArg Char.toNat (dif_pos h)
    exact .inr ⟨by omega, hlow, hhigh⟩
  · exact .inl ⟨dif_neg h, fun hc =>
      h ⟨UInt32.le_iff_toNat_le.mpr hc.1, UInt32.le_iff_toNat_le.mpr hc.2⟩⟩

theorem toLower_toLower (c : Char) : c.toLower.toLower = c.toLower := by
  rcases toLower_cases c.toLower with ⟨h, -⟩ | ⟨-, hlow, hhigh⟩
  · exact h
  · rcases toLower_cases c with ⟨h, hc⟩ | ⟨h, hc⟩
    · rw [h] at hlow hhigh
      exact absurd ⟨hlow, hhigh⟩ hc
    · omega

theorem eq_or_of_toLower_eq {c d : Char} (h : c.toLower = d) :
    c = d ∨ c.toNat + 32 = d.toNat ∧ 65 ≤ c.toNat ∧ c.toNat ≤ 90 := by
  rcases toLower_cases c with ⟨hc, -⟩ | ⟨hc, hrange⟩
  · exact .inl (hc.symm.trans h)
  · exact .inr ⟨by rw [← h, hc], hrange⟩

/-- Only a letter has a lower case other than itself. -/
theorem eq_of_toLower_eq {c d : Char} (h : c.toLower = d) (hd : d.toNat < 97) : c = d := by
  rcases eq_or_of_toLower_eq h with hc | ⟨hc, hlow, -⟩
  · exact hc
  · omega

theorem digitValue_toLower (c : Char) : digitValue c.toLower = digitValue c := by
  rw [digitValue, toLower_toLower, digitValue]

theorem digitValue_toUpper (c : Char) : digitValue c.toUpper = digitValue c := by
  rcases Nat.lt_or_ge c.toNat 128 with h | h
  · have hascii : ∀ n < 128, digitValue (Char.ofNat n).toUpper = digitValue (Char.ofNat n) := by
      decide +kernel
    simpa only [Char.ofNat_toNat] using hascii c.toNat h
  · have hupper : c.toUpper = c := by
      refine dif_neg fun hc => ?_
      have : c.toNat ≤ 122 := UInt32.le_iff_toNat_le.mp hc.2
      omega
    rw [hupper]

section

variable {radix : Nat} {c : Char} {cs ds : List Char} {n : Nat}

theorem digit?_eq (hr : radix ≤ 16) (c : Char) :
    digit? radix c = if digitValue c < radix then some (digitValue c) else none := by
  have hfilter : digit? radix c = (digit? 16 c).filter (· < radix) := by
    simp only [digit?, Option.filter_filter]
    congr 1
    funext d
    rw [← Bool.decide_and, decide_eq_decide]
    omega
  rw [hfilter, digit?_sixteen]
  split_ifs with h16 hlt hlt
  · simp [hlt]
  · simpa using hlt
  · omega
  · rfl

theorem digit?_eq_some_iff (hr : radix ≤ 16) :
    digit? radix c = some n ↔ digitValue c < radix ∧ digitValue c = n := by
  rw [digit?_eq hr]
  split_ifs with h <;> simp [h]

theorem isDigit_iff (c : Char) : c.isDigit = true ↔ digitValue c < 10 := by
  have hrange : c.isDigit = true ↔ '0' ≤ c ∧ c ≤ '9' := by
    rw [Char.isDigit, Bool.and_eq_true, decide_eq_true_eq, decide_eq_true_eq]
    rfl
  have hread : digitValue c < 10 ↔ (digit? 10 c).isSome := by
    rw [digit?_eq (by decide)]
    split_ifs with h <;> simp [h]
  rw [hrange, hread, digit?]
  split_ifs with hdigit hlower hupper
  · have hhigh : c.toNat ≤ 57 := hdigit.2
    simpa [hdigit] using (by omega : c.toNat - 48 < 10)
  all_goals simp [hdigit]

theorem positional_concat (cs : List Char) (c : Char) :
    positional radix (cs ++ [c]) = positional radix cs * radix + digitValue c := by
  rw [positional, positional, List.map_append, List.reverse_append, List.map_singleton,
    List.reverse_singleton, List.singleton_append, Nat.ofDigits_cons]
  ring

theorem foldlM_digits (hr : radix ≤ 16) (cs : List Char) (n : Nat) :
    cs.foldlM (fun n c => (digit? radix c).map (n * radix + ·)) 0 = some n ↔
      (∀ c ∈ cs, digitValue c < radix) ∧ positional radix cs = n := by
  induction cs using List.reverseRecOn generalizing n with
  | nil => simp [positional, eq_comm]
  | append_singleton cs c ih =>
    rw [List.foldlM_append, positional_concat]
    simp only [List.foldlM_cons, List.foldlM_nil, bind_pure, Option.bind_eq_bind,
      Option.bind_eq_some_iff, Option.map_eq_some_iff, ih, digit?_eq_some_iff hr,
      List.forall_mem_append, List.forall_mem_singleton]
    constructor
    · rintro ⟨_, ⟨hcs, rfl⟩, _, ⟨hc, rfl⟩, rfl⟩
      exact ⟨⟨hcs, hc⟩, rfl⟩
    · rintro ⟨⟨hcs, hc⟩, rfl⟩
      exact ⟨_, ⟨hcs, rfl⟩, _, ⟨hc, rfl⟩, rfl⟩

/-- The reader of digits accepts one or more digits, and nothing else. -/
theorem ofDigits?_eq_some_iff (hr : radix ≤ 16) : ofDigits? radix cs = some n ↔
    cs ≠ [] ∧ (∀ c ∈ cs, digitValue c < radix) ∧ positional radix cs = n := by
  rw [ofDigits?]
  split_ifs with h
  · simp [List.isEmpty_iff.mp h]
  · rw [foldlM_digits hr]
    simp [List.isEmpty_iff.not.mp h]

theorem digitValue_digitChar {d : Nat} (hd : d < 16) : digitValue d.digitChar = d := by
  interval_cases d <;> rfl

theorem positional_toDigits (hone : 1 < radix) (hr : radix ≤ 16) (n : Nat) :
    (∀ c ∈ Nat.toDigits radix n, digitValue c < radix) ∧
      positional radix (Nat.toDigits radix n) = n := by
  induction n using Nat.strongRecOn with
  | _ n ih =>
    rw [Nat.toDigits_eq_if hone]
    split_ifs with h
    · have hvalue := digitValue_digitChar (by omega : n < 16)
      refine ⟨by simpa [hvalue] using h, ?_⟩
      simp [positional, hvalue]
    · have hmod : n % radix < radix := Nat.mod_lt n (by omega)
      have hvalue := digitValue_digitChar (by omega : n % radix < 16)
      obtain ⟨hdigits, hrest⟩ := ih (n / radix) (Nat.div_lt_self (by omega) hone)
      refine ⟨List.forall_mem_append.mpr ⟨hdigits, by simpa [hvalue] using hmod⟩, ?_⟩
      rw [positional_concat, hrest, hvalue, Nat.div_add_mod']

theorem ofDigits?_toDigits (hone : 1 < radix) (hr : radix ≤ 16) (n : Nat) :
    ofDigits? radix (Nat.toDigits radix n) = some n :=
  (ofDigits?_eq_some_iff hr).mpr ⟨Nat.toDigits_ne_nil, positional_toDigits hone hr n⟩

/-- Only the values of the digits count. -/
theorem ofDigits?_map (hr : radix ≤ 16) {f : Char → Char}
    (hf : ∀ c, digitValue (f c) = digitValue c) (cs : List Char) :
    ofDigits? radix (cs.map f) = ofDigits? radix cs := by
  have hposition : positional radix (cs.map f) = positional radix cs := by
    rw [positional, List.map_map, positional]
    exact congrArg _ (congrArg _ (List.map_congr_left fun c _ => hf c))
  apply Option.ext
  intro n
  rw [ofDigits?_eq_some_iff hr, ofDigits?_eq_some_iff hr, hposition]
  simp [hf]

theorem ofDigits?_map_toLower (hr : radix ≤ 16) (cs : List Char) :
    ofDigits? radix (cs.map Char.toLower) = ofDigits? radix cs :=
  ofDigits?_map hr digitValue_toLower cs

theorem ofDigits?_zeros (hpos : 0 < radix) (hr : radix ≤ 16) (k : Nat) (hcs : cs ≠ []) :
    ofDigits? radix (List.replicate k '0' ++ cs) = ofDigits? radix cs := by
  have hzero : digitValue '0' = 0 := rfl
  have hposition : positional radix (List.replicate k '0' ++ cs) = positional radix cs := by
    rw [positional, List.map_append, List.map_replicate, List.reverse_append,
      List.reverse_replicate, hzero, Nat.ofDigits_append_replicate_zero, positional]
  apply Option.ext
  intro n
  rw [ofDigits?_eq_some_iff hr, ofDigits?_eq_some_iff hr, hposition, List.forall_mem_append]
  simp [hcs, hzero, hpos]

theorem ofUnsigned?_map_toLower (hr : radix ≤ 16) (cs : List Char) :
    ofUnsigned? radix (cs.map Char.toLower) = ofUnsigned? radix cs := by
  cases cs with
  | nil => rfl
  | cons c cs =>
    by_cases hc : c = '+'
    · subst hc
      exact ofDigits?_map_toLower hr cs
    · have hlower : c.toLower ≠ '+' := fun h => hc (eq_of_toLower_eq h (by decide))
      have hmap := ofDigits?_map_toLower hr (c :: cs)
      unfold ofUnsigned?
      split <;> split <;> simp_all

theorem ofUnsigned?_eq_some_iff (hr : radix ≤ 16) : ofUnsigned? radix cs = some n ↔
    ofDigits? radix cs = some n ∨ ∃ ds, cs = '+' :: ds ∧ ofDigits? radix ds = some n := by
  constructor
  · intro h
    unfold ofUnsigned? at h
    split at h
    next ds => exact .inr ⟨ds, rfl, h⟩
    next => exact .inl h
  · rintro (h | ⟨ds, rfl, h⟩)
    · unfold ofUnsigned?
      split
      next ds =>
        -- A plus sign is no digit.
        have hplus := ((ofDigits?_eq_some_iff hr).mp h).2.1 '+' List.mem_cons_self
        exact absurd (hplus.trans_le hr) (by decide)
      next => exact h
    · exact h

end

end PatchCode.Text
