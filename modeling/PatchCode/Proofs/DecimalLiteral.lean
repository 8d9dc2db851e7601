import Mathlib.Tactic
import PatchCode.Literal.Decimal
import PatchCode.Proofs.DoubleRounding
import PatchCode.Proofs.IntegerData
import PatchCode.Statement

/-! Decimal literals. The grammar of finite ones is stated apart from the reader: an optional sign,
digits with an optional point among them, and an optional exponent of ten. The reader gives each of
them the double nearest to its value, however many digits and however large an exponent it has, and
a single is rounded from that double. -/

namespace PatchCode

namespace Literal

namespace Decimal

theorem two_pow_le_tooLarge : (2 : ℚ) ^ 1075 ≤ 10 ^ tooLarge := by
  calc (2 : ℚ) ^ 1075 ≤ 2 ^ (3 * 400) := pow_le_pow_right₀ one_le_two (by decide)
    _ = (2 ^ 3) ^ 400 := pow_mul 2 3 400
    _ ≤ 10 ^ 400 := pow_le_pow_left₀ (by norm_num) (by norm_num) 400
    _ = 10 ^ tooLarge := (zpow_natCast _ 400).symm

theorem two_pow_le_of_tooLarge {digits : Nat} {exponent : Int} (hpos : 0 < digits)
    (h : tooLarge ≤ exponent) :
    (2 : ℚ) ^ 1024 ≤ digits * 10 ^ exponent := by
  have hdigits : (1 : ℚ) ≤ digits := by exact_mod_cast hpos
  have hpow : (10 : ℚ) ^ tooLarge ≤ 10 ^ exponent := zpow_le_zpow_right₀ (by norm_num) h
  calc (2 : ℚ) ^ 1024 ≤ 2 ^ 1075 := pow_le_pow_right₀ one_le_two (by decide)
    _ ≤ 10 ^ exponent := two_pow_le_tooLarge.trans hpow
    _ ≤ digits * 10 ^ exponent := le_mul_of_one_le_left (by positivity) hdigits

theorem le_midpoint_of_small {digits : Nat} {exponent : Int}
    (h : exponent + digits.log2 + 1 ≤ -tooLarge) :
    (digits : ℚ) * 10 ^ exponent ≤ BinaryFormat.double.midpoint 0 := by
  have hmidpoint : BinaryFormat.double.midpoint 0 = 1 / 2 ^ 1075 := by
    have hunits : BinaryFormat.double.units 0 + BinaryFormat.double.units (0 + 1) = 1 := by decide
    have hdepth : BinaryFormat.double.depth = 1074 := by decide
    rw [BinaryFormat.midpoint_eq, hunits, hdepth, Nat.cast_one, Nat.cast_mul, Nat.cast_pow,
      Nat.cast_ofNat, ← pow_succ']
  have hdigits : (digits : ℚ) ≤ 10 ^ (digits.log2 + 1) := by
    exact_mod_cast Nat.lt_log2_self.le.trans (Nat.pow_le_pow_left (by decide) _)
  calc (digits : ℚ) * 10 ^ exponent ≤ 10 ^ (digits.log2 + 1) * 10 ^ exponent := by gcongr
    _ = 10 ^ (exponent + digits.log2 + 1) := by
      rw [← zpow_natCast, ← zpow_add₀ (by norm_num)]
      congr 1
      push_cast
      ring
    _ ≤ 10 ^ (-tooLarge) := zpow_le_zpow_right₀ (by norm_num) h
    _ ≤ 1 / 2 ^ 1075 := by
      rw [zpow_neg, one_div]
      exact inv_anti₀ (by positivity) two_pow_le_tooLarge
    _ = BinaryFormat.double.midpoint 0 := hmidpoint.symm

/-- A decimal is rounded to the double nearest to it, also where its size alone decides. -/
theorem nearest_round (digits : Nat) (exponent : Int) :
    BinaryFormat.double.Nearest (digits * 10 ^ exponent) (round digits exponent) := by
  unfold round
  split_ifs with hzero hlarge hsmall
  · apply BinaryFormat.nearest_zero
    rw [hzero, Nat.cast_zero, zero_mul, BinaryFormat.midpoint_eq]
    positivity
  · apply BinaryFormat.nearest_infinity
    rw [BinaryFormat.value_infinity (by decide)]
    exact two_pow_le_of_tooLarge (Nat.pos_of_ne_zero hzero) hlarge
  · exact BinaryFormat.nearest_zero (le_midpoint_of_small hsmall)
  · have hround :=
      BinaryFormat.nearest_round (f := BinaryFormat.double)
        (n := digits * Nat.pow 10 exponent.toNat)
      (d := Nat.pow 10 (-exponent).toNat) (by decide) (Nat.pow_pos (by decide))
    have hq : (digits : ℚ) * 10 ^ exponent =
        (digits * Nat.pow 10 exponent.toNat : Nat) / (Nat.pow 10 (-exponent).toNat : Nat) := by
      have hexponent : exponent = (exponent.toNat : Int) - ((-exponent).toNat : Int) := by omega
      conv_lhs => rw [hexponent]
      rw [zpow_sub₀ (by norm_num), zpow_natCast, zpow_natCast, ← mul_div_assoc]
      push_cast [Nat.pow_eq]
      rfl
    rwa [hq]

end Decimal

def Sign.bit : Sign → Nat
  | minus => 1
  | absent | plus => 0

structure DecimalExponent where
  letter : Char
  sign : Sign
  digits : List Char
  letter_mem : letter ∈ ['e', 'E']
  digits_ne_nil : digits ≠ []
  digits_lt : ∀ c ∈ digits, Text.digitValue c < 10

namespace DecimalExponent

def chars (e : DecimalExponent) : List Char := e.letter :: (e.sign.text.toList ++ e.digits)

def value (e : DecimalExponent) : Int := e.sign.apply (Text.positional 10 e.digits)

end DecimalExponent

/-- A finite decimal literal as the grammar has it, with at least one digit before or behind the
point. -/
structure DecimalNumeral where
  sign : Sign
  whole : List Char
  /-- What stands behind the point, if there is one. -/
  fraction : Option (List Char)
  exponent : Option DecimalExponent
  digits_ne_nil : whole ++ fraction.getD [] ≠ []
  digits_lt : ∀ c ∈ whole ++ fraction.getD [], Text.digitValue c < 10

namespace DecimalNumeral

def digits (n : DecimalNumeral) : List Char := n.whole ++ n.fraction.getD []

def pointChars (n : DecimalNumeral) : List Char := n.fraction.elim [] ('.' :: ·)

def exponentChars (n : DecimalNumeral) : List Char := n.exponent.elim [] DecimalExponent.chars

def body (n : DecimalNumeral) : List Char := n.whole ++ (n.pointChars ++ n.exponentChars)

def text (n : DecimalNumeral) : String := n.sign.text ++ .ofList n.body

/-- The power of ten of the last digit. -/
def scale (n : DecimalNumeral) : Int :=
  n.exponent.elim 0 DecimalExponent.value - (n.fraction.getD []).length

def magnitude (n : DecimalNumeral) : ℚ := Text.positional 10 n.digits * 10 ^ n.scale

def value (n : DecimalNumeral) : ℚ := if n.sign = .minus then -n.magnitude else n.magnitude

theorem abs_value (n : DecimalNumeral) : |n.value| = n.magnitude := by
  have hnonneg : 0 ≤ n.magnitude := by
    rw [magnitude]
    positivity
  rw [value]
  split_ifs
  · rw [abs_neg, abs_of_nonneg hnonneg]
  · exact abs_of_nonneg hnonneg

end DecimalNumeral

theorem sign_ne_of_digitValue_lt {c : Char} (h : Text.digitValue c < 10) : c ≠ '-' ∧ c ≠ '+' := by
  constructor <;> rintro rfl <;> exact absurd h (by decide)

namespace DecimalExponent

variable (e : DecimalExponent)

theorem letter_cases : e.letter.toLower = 'e' ∧ e.letter.isDigit = false ∧ e.letter ≠ '.' := by
  rcases List.mem_pair.mp e.letter_mem with h | h <;> rw [h] <;> decide

theorem exponent?_chars : Decimal.exponent? e.chars = some e.value := by
  have hhead : ∀ c ∈ e.digits.head?, c ≠ '-' ∧ c ≠ '+' := fun c hc =>
    sign_ne_of_digitValue_lt (e.digits_lt c (List.mem_of_mem_head? hc))
  have hdigits : Text.ofDigits? 10 e.digits = some (Text.positional 10 e.digits) :=
    (Text.ofDigits?_eq_some_iff (by decide)).mpr ⟨e.digits_ne_nil, e.digits_lt, rfl⟩
  rw [chars, Decimal.exponent?, if_pos e.letter_cases.1]
  simp only [splitSign_text e.sign hhead, hdigits, value]
  cases e.sign <;> rfl

end DecimalExponent

namespace DecimalNumeral

variable (n : DecimalNumeral)

theorem exponent?_exponentChars :
    Decimal.exponent? n.exponentChars = some (n.exponent.elim 0 DecimalExponent.value) := by
  unfold exponentChars
  cases n.exponent with
  | none => rfl
  | some e => exact e.exponent?_chars

/-- The digits before an exponent end there. -/
theorem head?_exponentChars : ∀ c ∈ n.exponentChars.head?, c.isDigit = false ∧ c ≠ '.' := by
  intro c hc
  unfold exponentChars at hc
  cases he : n.exponent with
  | none => simp [he] at hc
  | some e =>
    rw [he] at hc
    obtain rfl : e.letter = c := Option.some.inj hc
    exact e.letter_cases.2

theorem span_digits {front back : List Char} (hfront : ∀ c ∈ front, Text.digitValue c < 10)
    (hback : ∀ c ∈ back.head?, c.isDigit = false) :
    (front ++ back).takeWhile Char.isDigit = front ∧
    (front ++ back).dropWhile Char.isDigit = back := by
  have hdigits : ∀ c ∈ front, c.isDigit = true := fun c hc => (Text.isDigit_iff c).mpr (hfront c hc)
  rw [List.takeWhile_append_of_pos hdigits, List.dropWhile_append_of_pos hdigits]
  cases back with
  | nil => simp
  | cons c back => simp [hback c rfl]

theorem number?_body :
    Decimal.number? n.body = some (.finite (Text.positional 10 n.digits) n.scale) := by
  have hdigits : Text.ofDigits? 10 n.digits = some (Text.positional 10 n.digits) :=
    (Text.ofDigits?_eq_some_iff (by decide)).mpr ⟨n.digits_ne_nil, n.digits_lt, rfl⟩
  have hexponent := n.exponent?_exponentChars
  have hend : ∀ c ∈ n.exponentChars.head?, c.isDigit = false :=
    fun c hc => (n.head?_exponentChars c hc).1
  have hlt := n.digits_lt
  unfold Decimal.number? body pointChars scale
  unfold digits at *
  cases hfraction : n.fraction with
  | none =>
    rw [hfraction] at hdigits hlt
    obtain ⟨htake, hdrop⟩ := span_digits (fun c hc => hlt c (List.mem_append_left _ hc)) hend
    have hpoint : ∀ tail, n.exponentChars ≠ '.' :: tail := by
      intro tail heq
      exact (n.head?_exponentChars '.' (by rw [heq]; rfl)).2 rfl
    simp only [Option.getD_none] at *
    simp only [Option.elim_none, List.nil_append, htake, hdrop, hdigits, hexponent]
  | some part =>
    rw [hfraction] at hdigits hlt
    obtain ⟨htake, hdrop⟩ := span_digits (fun c hc => hlt c (List.mem_append_left _ hc))
      (show ∀ c ∈ ('.' :: (part ++ n.exponentChars)).head?, c.isDigit = false by simp)
    obtain ⟨htake', hdrop'⟩ := span_digits (fun c hc => hlt c (List.mem_append_right _ hc)) hend
    simp only [Option.getD_some] at *
    simp only [Option.elim_some, List.cons_append, htake, hdrop, htake', hdrop', hdigits, hexponent]

theorem exists_head : ∃ c rest, n.body = c :: rest ∧ (Text.digitValue c < 10 ∨ c = '.') := by
  have hne := n.digits_ne_nil
  have hlt := n.digits_lt
  unfold body pointChars
  cases hwhole : n.whole with
  | cons c whole =>
    rw [hwhole] at hlt
    exact ⟨c, _, rfl, .inl (hlt c (by simp))⟩
  | nil =>
    cases hfraction : n.fraction with
    | none => simp [hwhole, hfraction] at hne
    | some part => exact ⟨'.', _, rfl, .inr rfl⟩

/-- No finite literal is a word for infinity or for no number. -/
theorem unsigned?_body : Decimal.unsigned? n.body = Decimal.number? n.body := by
  obtain ⟨c, rest, hbody, hc⟩ := n.exists_head
  have hletter : c.toLower ≠ 'i' ∧ c.toLower ≠ 'n' := by
    rcases hc with hc | rfl
    · rw [Text.digitValue] at hc
      constructor <;> intro heq <;> rw [heq] at hc <;> exact absurd hc (by decide)
    · decide
  unfold Decimal.unsigned?
  split
  next heq => simp [← String.toList_inj, hbody, hletter] at heq
  next heq => simp [← String.toList_inj, hbody, hletter] at heq
  next heq => simp [← String.toList_inj, hbody, hletter] at heq
  next => rfl

theorem splitSign_text : splitSign n.text.toList = (decide (n.sign = .minus), n.body) := by
  have hhead : ∀ c ∈ n.body.head?, c ≠ '-' ∧ c ≠ '+' := by
    obtain ⟨c, rest, hbody, hc⟩ := n.exists_head
    rw [hbody]
    rintro _ ⟨⟩
    rcases hc with hc | rfl
    · exact sign_ne_of_digitValue_lt hc
    · decide
  rw [text, String.toList_append, String.toList_ofList]
  exact Literal.splitSign_text n.sign hhead

theorem double?_text : double? n.text.toList =
    some (.ofNat (n.sign.bit * BinaryFormat.double.signBit +
      Decimal.round (Text.positional 10 n.digits) n.scale)) := by
  simp only [double?, splitSign_text, unsigned?_body, number?_body, Option.map_some,
    Decimal.magnitude]
  cases n.sign <;> simp [Sign.bit]

theorem single_text : ∃ wide k : Nat, ∃ w : UInt32, single n.text = .ok w ∧
    w.toNat = n.sign.bit * BinaryFormat.single.signBit + k ∧
    BinaryFormat.double.Nearest |n.value| wide ∧
      BinaryFormat.single.Nearest (BinaryFormat.double.value wide) k := by
  have hwide := Decimal.nearest_round (Text.positional 10 n.digits) n.scale
  rw [abs_value, magnitude]
  set wide := Decimal.round (Text.positional 10 n.digits) n.scale
  have hsign : wide < BinaryFormat.double.signBit := hwide.le.trans_lt (by decide)
  obtain ⟨k, hk, hconvert⟩ := BinaryFormat.exists_convert (g := BinaryFormat.single) (by decide)
    BinaryFormat.value_infinity_le hwide.le hsign
  have hbit : n.sign.bit ≤ 1 := by cases n.sign <;> decide
  have hsize : n.sign.bit * BinaryFormat.double.signBit + wide < 2 ^ 64 := by
    have : BinaryFormat.double.signBit = 2 ^ 63 := by decide
    nlinarith
  have hsingle : n.sign.bit * BinaryFormat.single.signBit + k < 2 ^ 32 := by
    have : BinaryFormat.single.signBit = 2 ^ 31 := by decide
    have : BinaryFormat.single.infinity < 2 ^ 31 := by decide
    have := hk.le
    nlinarith
  refine ⟨wide, k, .ofNat (n.sign.bit * BinaryFormat.single.signBit + k), ?_, ?_, hwide, hk⟩
  · rw [single, double, double?_text]
    change Except.ok (singleOfDouble _) = _
    rw [singleOfDouble, UInt64.toNat_ofNat_of_lt' hsize, hconvert]
  · exact UInt32.toNat_ofNat_of_lt' hsingle

/-- The word holds the sign and the single nearest to the double nearest to the literal. That is the
single nearest to the literal unless the double misleads. -/
def RoundsTo (n : DecimalNumeral) (w : UInt32) : Prop :=
  ∃ wide k : Nat, w.toNat = n.sign.bit * 2 ^ 31 + k ∧ BinaryFormat.double.Nearest |n.value| wide ∧
    BinaryFormat.single.Nearest (BinaryFormat.double.value wide) k ∧
      (BinaryFormat.single.Nearest |n.value| k ↔
        ¬BinaryFormat.double.Misleads .single |n.value| wide)

theorem exists_roundsTo : ∃ w, single n.text = .ok w ∧ n.RoundsTo w := by
  obtain ⟨wide, k, w, hsingle, hw, hwide, hk⟩ := n.single_text
  exact ⟨w, hsingle, wide, k, hw, hwide, hk,
    BinaryFormat.nearest_twice_iff BinaryFormat.refines_double_single hwide hk⟩

end DecimalNumeral

end Literal

open Literal

/-- Each literal of a directive gives four bytes, the same ones that stand for the value of a patch:
those of the single nearest to the double nearest to it. They are those of the single nearest to the
literal itself, unless that double is halfway between two singles and the literal is on the side of
the odd one. -/
theorem encode_singles {ns : List DecimalNumeral} {args : String}
    (hargs : Source.tokens args.toList = ns.map DecimalNumeral.text) (hne : ns ≠ []) :
    ∃ words : List UInt32,
      (DataKind.ofName? "f32").map (·.encode args) = some (.ok (words.flatMap Bytes.ofWord)) ∧
        List.Forall₂ (fun n w => Statement.value .f32 n.text = .ok w ∧ n.RoundsTo w) ns words := by
  choose word hword hrounds using DecimalNumeral.exists_roundsTo
  have hgroups : (ns.map DecimalNumeral.text).mapM Element.single.encode =
      .ok (ns.map fun n => Bytes.ofWord (word n)) := by
    rw [mapM_eq_ok_iff, List.forall₂_map_left_iff, List.forall₂_map_right_iff, List.forall₂_same]
    intro n _
    rw [Element.encode, hword]
    rfl
  refine ⟨ns.map word,
    congrArg some ((DataKind.encode_literals_eq_ok_iff _).mpr ⟨?_, _, hargs ▸ hgroups, ?_⟩), ?_⟩
  · simpa [hargs] using hne
  · rw [List.flatMap_map]
    rfl
  · rw [List.forall₂_map_right_iff, List.forall₂_same]
    exact fun n _ => ⟨hword n, hrounds n⟩

theorem digits_of_all {cs : List Char} (h : cs.all (Text.digitValue · < 10) = true) :
    ∀ c ∈ cs, Text.digitValue c < 10 := by
  simpa using h

/-- A little more than an odd number that is halfway between two singles. -/
def aboveOdd : DecimalNumeral where
  sign := .absent
  whole := "16777217".toList
  fraction := some "000000001".toList
  exponent := none
  digits_ne_nil := by decide
  digits_lt := digits_of_all (by decide)

def immense : DecimalNumeral where
  sign := .minus
  whole := "1".toList
  fraction := none
  exponent := some ⟨'E', .plus, "40".toList, by decide, by decide, digits_of_all (by decide)⟩
  digits_ne_nil := by decide
  digits_lt := digits_of_all (by decide)

theorem encode_singles_immense :
    (Source.tokens "16777217.000000001, -1E+40".toList =
      [aboveOdd, immense].map DecimalNumeral.text ∧
        [aboveOdd, immense] ≠ []) ∧
      DataKind.encode (.literals .single) "16777217.000000001, -1E+40" =
        .ok [0x4B, 0x80, 0, 0, 0xFF, 0x80, 0, 0] ∧
      ∃ words : List UInt32,
        (DataKind.ofName? "f32").map (·.encode "16777217.000000001, -1E+40") =
          some (.ok (words.flatMap Bytes.ofWord)) ∧
          List.Forall₂ (fun n w => Statement.value .f32 n.text = .ok w ∧
            n.RoundsTo w) [aboveOdd, immense] words := by
  have htokens : Source.tokens "16777217.000000001, -1E+40".toList =
      [aboveOdd, immense].map DecimalNumeral.text := by decide
  have hne : [aboveOdd, immense] ≠ [] := List.cons_ne_nil _ _
  exact ⟨⟨htokens, hne⟩, by decide +kernel, encode_singles htokens hne⟩

/-- Rounded once, the number goes up. -/
theorem single_aboveOdd : aboveOdd.text = "16777217.000000001" ∧
    DataKind.encode (.literals .single) "16777217.000000001" = .ok [0x4B, 0x80, 0, 0] ∧
    BinaryFormat.single.Nearest |aboveOdd.value| 0x4B800001 ∧
    ¬BinaryFormat.single.Nearest |aboveOdd.value| (Bytes.toNat [0x4B, 0x80, 0, 0]) := by
  have hvalue : |aboveOdd.value| = (16777217000000001 : Nat) / (1000000000 : Nat) := by
    have hdigits : Text.positional 10 aboveOdd.digits = 16777217000000001 := by decide
    have hscale : aboveOdd.scale = -9 := by decide
    rw [DecimalNumeral.abs_value, DecimalNumeral.magnitude, hdigits, hscale]
    norm_num
  have hround : BinaryFormat.single.round 16777217000000001 1000000000 = 0x4B800001 := by
    decide +kernel
  have hnearest : BinaryFormat.single.Nearest |aboveOdd.value| 0x4B800001 := by
    rw [hvalue, ← hround]
    exact BinaryFormat.nearest_round (by decide) (by decide)
  refine ⟨by decide, by decide +kernel, hnearest, fun h => ?_⟩
  exact absurd (h.unique hnearest) (by decide)

end PatchCode
