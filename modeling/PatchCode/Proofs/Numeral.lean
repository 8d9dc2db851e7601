import Mathlib.Tactic
import PatchCode.Proofs.IntegerLiteral
import PatchCode.Statement

/-! Decimal numerals read back: as literals below 2^63, as the counts of repeats and as labels. -/

namespace PatchCode

namespace Text

def decimalAlphabet : List Char := "0123456789".toList

theorem mem_decimalAlphabet {c : Char} (h : c.isDigit = true) : c ∈ decimalAlphabet := by
  obtain ⟨hlow, hhigh⟩ := Char.isDigit_iff_toNat.mp h
  rw [← Char.ofNat_toNat c]
  change 48 ≤ c.toNat at hlow
  change c.toNat ≤ 57 at hhigh
  interval_cases c.toNat <;> decide

/-- A digit has its value, no case, and no meaning of its own in a line. -/
structure PlainDigit (c : Char) : Prop where
  value : digit? 10 c = some (c.toNat - '0'.toNat)
  lower : c.toLower = c
  solid : Source.isSeparator c = false
  ordinary : c ∉ "+-xb;\"".toList

theorem PlainDigit.not_blank {c : Char} (h : PlainDigit c) : isBlank c = false := by
  have hsolid := h.solid
  simp only [Source.isSeparator, Bool.or_eq_false_iff] at hsolid
  exact hsolid.1.1.1

theorem plainDigit {n : Nat} {c : Char} (hc : c ∈ Nat.toDigits 10 n) : PlainDigit c := by
  have hall : decimalAlphabet.all (fun c =>
      digit? 10 c == some (c.toNat - '0'.toNat) && c.toLower == c && !Source.isSeparator c &&
        !"+-xb;\"".toList.contains c) = true := by decide
  have hmem := mem_decimalAlphabet (Nat.isDigit_of_mem_toDigits (by decide) (le_refl 10) hc)
  have h := List.all_eq_true.mp hall c hmem
  simp only [Bool.and_eq_true, beq_iff_eq, Bool.not_eq_true', List.contains_eq_mem,
    decide_eq_false_iff_not] at h
  exact ⟨h.1.1.1, h.1.1.2, h.1.2, h.2⟩

end Text

namespace Literal

theorem integer_toDigits {n : Nat} (hn : n < 2 ^ 63) :
    integer (.ofList (Nat.toDigits 10 n)) = .ok (n : Int) := by
  have htext : toString (n : Int) = .ofList (Nat.toDigits 10 n) := Nat.repr_eq_ofList_toDigits
  rw [← htext, integer_toString (by omega) (by omega)]

end Literal

namespace Source

/-- Without semicolons and quotes there is no comment to look for. -/
theorem stripComment_of_plain {cs : List Char} (h : ∀ c ∈ cs, c ≠ ';' ∧ c ≠ '"') :
    stripComment cs = cs := by
  unfold stripComment
  induction cs with
  | nil => rfl
  | cons c cs ih =>
    obtain ⟨hsemicolon, hquote⟩ := h c List.mem_cons_self
    rw [beforeComment, if_neg (by simp [hsemicolon]), Quoting.next_outside hquote,
      ih fun d hd => h d (List.mem_cons_of_mem c hd)]

theorem isToken_toDigits (n : Nat) : IsToken (.ofList (Nat.toDigits 10 n)) :=
  ⟨by simp [Nat.toDigits_ne_nil], fun c hc => (Text.plainDigit (by simpa using hc)).solid⟩

theorem tokens_repeat (n : Nat) :
    tokens ("repeat ".toList ++ Nat.toDigits 10 n) = ["repeat", .ofList (Nat.toDigits 10 n)] := by
  have hword : IsToken "repeat" := by decide
  have hdigits := tokens_of_isToken (isToken_toDigits n)
  rw [String.toList_ofList] at hdigits
  change tokens ("repeat".toList ++ ' ' :: Nat.toDigits 10 n) = _
  rw [tokens_append (by decide), tokens_of_isToken hword, hdigits]
  rfl

theorem clean_repeat (n : Nat) :
    clean ("!repeat " ++ toString n) = "!repeat ".toList ++ Nat.toDigits 10 n := by
  rw [clean, String.toList_append, Nat.toString_eq_repr, Nat.toList_repr]
  have hplain : ∀ c ∈ "!repeat ".toList ++ Nat.toDigits 10 n, c ≠ ';' ∧ c ≠ '"' := by
    intro c hc
    rcases List.mem_append.mp hc with hc | hc
    · constructor <;> rintro rfl <;> exact absurd hc (by decide)
    · have hc := (Text.plainDigit hc).ordinary
      constructor <;> rintro rfl <;> exact absurd (by decide) hc
  rw [stripComment_of_plain hplain]
  apply Text.trim_of_ends
  · intro c hc
    obtain rfl : '!' = c := Option.some.inj hc
    decide
  · intro c hc
    rw [List.getLast?_append_of_ne_nil _ Nat.toDigits_ne_nil] at hc
    exact (Text.plainDigit (List.mem_of_getLast? hc)).not_blank

theorem clean_label (n : Nat) : clean (toString n ++ ":") = Nat.toDigits 10 n ++ [':'] := by
  rw [clean, String.toList_append, Nat.toString_eq_repr, Nat.toList_repr]
  change Text.trim (stripComment (Nat.toDigits 10 n ++ [':'])) = _
  have hplain : ∀ c ∈ Nat.toDigits 10 n ++ [':'], c ≠ ';' ∧ c ≠ '"' := by
    intro c hc
    rcases List.mem_append.mp hc with hc | hc
    · have hc := (Text.plainDigit hc).ordinary
      constructor <;> rintro rfl <;> exact absurd (by decide) hc
    · obtain rfl := List.mem_singleton.mp hc
      decide
  rw [stripComment_of_plain hplain]
  apply Text.trim_of_ends
  · intro c hc
    rw [List.head?_append_of_ne_nil _ Nat.toDigits_ne_nil] at hc
    exact (Text.plainDigit (List.mem_of_mem_head? hc)).not_blank
  · intro c hc
    rw [List.getLast?_concat] at hc
    obtain rfl : ':' = c := Option.some.inj hc
    decide

end Source

theorem Statement.read_repeat {n : Nat} (hn : n < 2 ^ 63) :
    read (Source.clean ("!repeat " ++ toString n)) = .ok (.opens (.times n)) := by
  rw [Source.clean_repeat]
  change readDirective (Source.tokens ("repeat ".toList ++ Nat.toDigits 10 n)) = _
  rw [Source.tokens_repeat]
  change readRepeat [.ofList (Nat.toDigits 10 n)] = _
  simp only [readRepeat, Literal.integer_toDigits hn, bind, Except.bind]
  rw [if_neg (by omega), Int.toNat_natCast]

namespace Statement

theorem labelText?_toDigits (n : Nat) :
    labelText? (Nat.toDigits 10 n ++ [':']) = some (Nat.toDigits 10 n) := by
  have htrim : Text.trim (Nat.toDigits 10 n) = Nat.toDigits 10 n :=
    Text.trim_of_ends (fun c hc => (Text.plainDigit (List.mem_of_mem_head? hc)).not_blank)
      fun c hc => (Text.plainDigit (List.mem_of_mem_getLast? hc)).not_blank
  have hword : (Nat.toDigits 10 n).any Text.isBlank = false :=
    List.any_eq_false.mpr fun c hc => by simp [(Text.plainDigit hc).not_blank]
  rw [labelText?, if_pos List.getLast?_concat]
  simp only [List.dropLast_concat, htrim, hword, Bool.or_false]
  rw [if_neg (by simp [Nat.toDigits_ne_nil])]

theorem read_label (a : Address) :
    read (Source.clean (toString a.toNat ++ ":")) = .ok (.plain (.label a)) := by
  have hplain : ∀ c, (Nat.toDigits 10 a.toNat ++ [':']).head? = some c → Text.PlainDigit c := by
    intro c hc
    rw [List.head?_append_of_ne_nil _ Nat.toDigits_ne_nil] at hc
    exact Text.plainDigit (List.mem_of_mem_head? hc)
  rw [Source.clean_label]
  unfold read
  split
  next rest heq =>
    have hvalue := (hplain '!' (by rw [heq]; rfl)).value
    cases hvalue
  next rest heq =>
    have hvalue := (hplain '.' (by rw [heq]; rfl)).value
    cases hvalue
  next =>
    have hlt : a.toNat < 2 ^ 63 := a.toNat_lt.trans (by decide)
    rw [labelText?_toDigits]
    change readLabel _ = _
    rw [readLabel, Literal.integer_toDigits hlt]
    have hlow : (a.toNat : Int) % 2 ^ 32 = a.toNat := by
      have := a.toNat_lt
      omega
    have hvalue : UInt32.ofInt (a.toNat : Int) = a := by
      rw [UInt32.ofInt, hlow, Int.toNat_natCast, UInt32.ofNat_toNat]
    rw [Except.map, hvalue]

end Statement

end PatchCode
