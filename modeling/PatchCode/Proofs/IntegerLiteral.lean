import Mathlib.Tactic
import PatchCode.Literal.Integer
import PatchCode.Proofs.Codec
import PatchCode.Proofs.Positional

/-! Integer literals. The grammar of literals is stated apart from the reader: an optional sign, the
mark of a radix and one or more digits of it. The reader gives each of them its value in 64 bits and
refuses those that are too large, and it accepts nothing else, apart from a plus sign between mark
and digits. -/

namespace PatchCode

namespace Literal

inductive Sign where
  | absent | plus | minus
  deriving Repr, DecidableEq

namespace Sign

def text : Sign → String
  | absent => ""
  | plus => "+"
  | minus => "-"

def apply : Sign → Nat → Int
  | absent, n | plus, n => n
  | minus, n => -n

end Sign

inductive Radix where
  | decimal | hexadecimal | binary
  deriving Repr, DecidableEq

namespace Radix

def base : Radix → Nat
  | decimal => 10
  | hexadecimal => 16
  | binary => 2

def marks : Radix → List String
  | decimal => [""]
  | hexadecimal => ["0x", "0X"]
  | binary => ["0b", "0B"]

end Radix

/-- An integer literal as the grammar has it. -/
structure Numeral where
  sign : Sign
  radix : Radix
  mark : String
  digits : List Char
  mark_mem : mark ∈ radix.marks
  digits_ne_nil : digits ≠ []
  digits_lt : ∀ c ∈ digits, Text.digitValue c < radix.base

namespace Numeral

def text (n : Numeral) : String := n.sign.text ++ n.mark ++ .ofList n.digits

/-- The literal with a plus sign between its mark and its digits, which is not in the grammar. -/
def plusText (n : Numeral) : String := n.sign.text ++ n.mark ++ "+" ++ .ofList n.digits

/-- What the reader takes for the literal: its text, and behind a mark also the text with a plus
sign. -/
def Admits (n : Numeral) (token : String) : Prop :=
  token = n.text ∨ n.radix ≠ .decimal ∧ token = n.plusText

def magnitude (n : Numeral) : Nat := Text.positional n.radix.base n.digits

def value (n : Numeral) : Int := n.sign.apply n.magnitude

end Numeral

theorem Radix.base_le (r : Radix) : r.base ≤ 16 := by
  cases r <;> decide

theorem magnitude?_marked {r : Radix} (hr : r ≠ .decimal) {mark : String} (hmark : mark ∈ r.marks)
    (cs : List Char) :
    magnitude? (mark.toList ++ cs) = Text.ofUnsigned? r.base cs := by
  rw [← Text.ofUnsigned?_map_toLower r.base_le]
  cases r with
  | decimal => exact absurd rfl hr
  | hexadecimal =>
    rcases List.mem_pair.mp hmark with rfl | rfl <;> rfl
  | binary =>
    rcases List.mem_pair.mp hmark with rfl | rfl <;> rfl

/-- What starts with a mark in lower case starts with the mark in one of its cases. -/
theorem mark_of_map_toLower {letter : Char} {cs ds : List Char}
    (h : cs.map Char.toLower = '0' :: letter :: ds) :
    ∃ c rest, cs = '0' :: c :: rest ∧ (c = letter ∨ c.toNat + 32 = letter.toNat) := by
  obtain ⟨a, cs, rfl, ha, hcs⟩ := List.map_eq_cons_iff.mp h
  obtain ⟨c, rest, rfl, hc, -⟩ := List.map_eq_cons_iff.mp hcs
  obtain rfl := Text.eq_of_toLower_eq ha (by decide)
  exact ⟨c, rest, rfl, (Text.eq_or_of_toLower_eq hc).imp_right And.left⟩

theorem magnitude?_cases (cs : List Char) :
    (∃ r : Radix, r ≠ .decimal ∧ ∃ mark ∈ r.marks, ∃ rest, cs = mark.toList ++ rest) ∨
      magnitude? cs = Text.ofDigits? 10 cs := by
  rw [← Text.ofDigits?_map_toLower (by decide) cs]
  unfold magnitude?
  split
  next ds heq =>
    obtain ⟨c, rest, rfl, hc⟩ := mark_of_map_toLower heq
    have hc : c = 'x' ∨ c = 'X' := hc.imp_right fun h => Char.toNat_inj.mp (Nat.add_right_cancel h)
    rcases hc with rfl | rfl
    · exact .inl ⟨.hexadecimal, by decide, "0x", by decide, rest, rfl⟩
    · exact .inl ⟨.hexadecimal, by decide, "0X", by decide, rest, rfl⟩
  next ds heq =>
    obtain ⟨c, rest, rfl, hc⟩ := mark_of_map_toLower heq
    have hc : c = 'b' ∨ c = 'B' := hc.imp_right fun h => Char.toNat_inj.mp (Nat.add_right_cancel h)
    rcases hc with rfl | rfl
    · exact .inl ⟨.binary, by decide, "0b", by decide, rest, rfl⟩
    · exact .inl ⟨.binary, by decide, "0B", by decide, rest, rfl⟩
  next => exact .inr rfl

/-- The letter of a mark is no decimal digit. -/
theorem Radix.mark_cases {r : Radix} (hr : r ≠ .decimal) {mark : String} (hmark : mark ∈ r.marks) :
    ∃ letter, mark.toList = ['0', letter] ∧ 10 ≤ Text.digitValue letter := by
  cases r with
  | decimal => exact absurd rfl hr
  | hexadecimal =>
    rcases List.mem_pair.mp hmark with rfl | rfl
    · exact ⟨'x', rfl, by decide⟩
    · exact ⟨'X', rfl, by decide⟩
  | binary =>
    rcases List.mem_pair.mp hmark with rfl | rfl
    · exact ⟨'b', rfl, by decide⟩
    · exact ⟨'B', rfl, by decide⟩

theorem magnitude?_of_decimal {cs : List Char} {n : Nat} (h : Text.ofDigits? 10 cs = some n) :
    magnitude? cs = some n := by
  rcases magnitude?_cases cs with ⟨r, hr, mark, hmark, rest, rfl⟩ | hcs
  · obtain ⟨letter, hletter, hvalue⟩ := Radix.mark_cases hr hmark
    have hdigits := ((Text.ofDigits?_eq_some_iff (by decide)).mp h).2.1
    have := hdigits letter (by simp [hletter])
    omega
  · rw [hcs, h]

/-- What is read as a magnitude is a mark and digits, with at most a plus sign between them. -/
theorem magnitude?_eq_some_iff {cs : List Char} {n : Nat} : magnitude? cs = some n ↔
    ∃ r : Radix, ∃ mark ∈ r.marks, ∃ digits, Text.ofDigits? r.base digits = some n ∧
      (cs = mark.toList ++ digits ∨ r ≠ .decimal ∧ cs = mark.toList ++ '+' :: digits) := by
  constructor
  · intro h
    rcases magnitude?_cases cs with ⟨r, hr, mark, hmark, rest, rfl⟩ | hcs
    · rw [magnitude?_marked hr hmark, Text.ofUnsigned?_eq_some_iff r.base_le] at h
      rcases h with h | ⟨digits, rfl, h⟩
      · exact ⟨r, mark, hmark, rest, h, .inl rfl⟩
      · exact ⟨r, mark, hmark, digits, h, .inr ⟨hr, rfl⟩⟩
    · exact ⟨.decimal, "", List.mem_singleton_self _, cs, hcs.symm.trans h, .inl rfl⟩
  · rintro ⟨r, mark, hmark, digits, h, hcs⟩
    by_cases hr : r = .decimal
    · -- Without a mark there is no second form.
      subst hr
      obtain rfl := List.mem_singleton.mp hmark
      obtain rfl := hcs.resolve_right fun hcs => hcs.1 rfl
      exact magnitude?_of_decimal h
    · have hread : ∀ rest, cs = mark.toList ++ rest → Text.ofUnsigned? r.base rest = some n →
          magnitude? cs = some n := by
        rintro rest rfl hrest
        rw [magnitude?_marked hr hmark, hrest]
      rcases hcs with hcs | ⟨-, hcs⟩
      · exact hread _ hcs ((Text.ofUnsigned?_eq_some_iff r.base_le).mpr (.inl h))
      · exact hread _ hcs ((Text.ofUnsigned?_eq_some_iff r.base_le).mpr (.inr ⟨digits, rfl, h⟩))

/-- A magnitude has no sign in front. -/
theorem head_of_magnitude? {cs : List Char} {n : Nat} (h : magnitude? cs = some n) :
    ∀ c ∈ cs.head?, c ≠ '-' ∧ c ≠ '+' := by
  intro c hc
  rcases magnitude?_cases cs with ⟨r, hr, mark, hmark, rest, rfl⟩ | hcs
  · obtain ⟨letter, hletter, -⟩ := Radix.mark_cases hr hmark
    rw [hletter] at hc
    obtain rfl : '0' = c := Option.some.inj hc
    decide
  · have hdigits := ((Text.ofDigits?_eq_some_iff (by decide)).mp (hcs.symm.trans h)).2.1
    have hlt := hdigits c (List.mem_of_mem_head? hc)
    constructor <;> rintro rfl <;> exact absurd hlt (by decide)

theorem splitSign_text (s : Sign) {cs : List Char} (h : ∀ c ∈ cs.head?, c ≠ '-' ∧ c ≠ '+') :
    splitSign (s.text.toList ++ cs) = (decide (s = .minus), cs) := by
  cases s with
  | plus => rfl
  | minus => rfl
  | absent =>
    change splitSign cs = _
    unfold splitSign
    split
    next => exact absurd rfl (h '-' rfl).1
    next => exact absurd rfl (h '+' rfl).2
    next => rfl

theorem exists_sign (cs : List Char) : ∃ s : Sign, cs = s.text.toList ++ (splitSign cs).2 := by
  unfold splitSign
  split
  · exact ⟨.minus, rfl⟩
  · exact ⟨.plus, rfl⟩
  · exact ⟨.absent, rfl⟩

theorem integer?_of_magnitude (s : Sign) {cs : List Char} {n : Nat} (h : magnitude? cs = some n) :
    integer? (s.text.toList ++ cs) = if n < 2 ^ 64 then some (signed64 (s.apply n)) else none := by
  have hsign : (if decide (s = .minus) then -(n : Int) else n) = s.apply n := by
    cases s <;> rfl
  simp only [integer?, splitSign_text s (head_of_magnitude? h), h, hsign]
  rfl

theorem exists_magnitude_of_integer? {cs : List Char} {v : Int} (h : integer? cs = some v) :
    ∃ s : Sign, ∃ rest n, cs = s.text.toList ++ rest ∧ magnitude? rest = some n ∧ n < 2 ^ 64 := by
  obtain ⟨s, hs⟩ := exists_sign cs
  rw [integer?] at h
  dsimp only at h
  split at h
  next n hn =>
    split at h
    next hlt => exact ⟨s, _, n, hs, hn, hlt⟩
    next => cases h
  next => cases h

theorem eq_literal_of_integer {token : String} {fault : Fault} (h : integer token = .error fault) :
    fault = .literal token := by
  rw [integer] at h
  split at h <;> cases h
  rfl

namespace Numeral

variable {n : Numeral} {token : String}

theorem ofDigits?_digits (n : Numeral) : Text.ofDigits? n.radix.base n.digits = some n.magnitude :=
  (Text.ofDigits?_eq_some_iff n.radix.base_le).mpr ⟨n.digits_ne_nil, n.digits_lt, rfl⟩

theorem integer_of_admits (h : n.Admits token) : integer token =
    if n.magnitude < 2 ^ 64 then .ok (signed64 n.value) else .error (.literal token) := by
  have hread : ∃ rest, token.toList = n.sign.text.toList ++ rest ∧
      magnitude? rest = some n.magnitude := by
    rcases h with rfl | ⟨hr, rfl⟩
    · exact ⟨n.mark.toList ++ n.digits, by simp [text], magnitude?_eq_some_iff.mpr
        ⟨_, _, n.mark_mem, _, n.ofDigits?_digits, .inl rfl⟩⟩
    · exact ⟨n.mark.toList ++ '+' :: n.digits, by simp [plusText], magnitude?_eq_some_iff.mpr
        ⟨_, _, n.mark_mem, _, n.ofDigits?_digits, .inr ⟨hr, rfl⟩⟩⟩
  obtain ⟨rest, htoken, hrest⟩ := hread
  rw [integer, htoken, integer?_of_magnitude n.sign hrest]
  split_ifs <;> rfl

/-- Whatever is accepted is a literal, taken apart as the reader takes it. -/
theorem exists_of_integer {v : Int} (h : integer token = .ok v) :
    ∃ n : Numeral, n.magnitude < 2 ^ 64 ∧ n.Admits token := by
  have hread : ∃ v, integer? token.toList = some v := by
    rw [integer] at h
    split at h
    next v hv => exact ⟨v, hv⟩
    next => cases h
  obtain ⟨v, hv⟩ := hread
  obtain ⟨s, rest, m, htoken, hrest, hm⟩ := exists_magnitude_of_integer? hv
  obtain ⟨r, mark, hmark, digits, hdigits, hform⟩ := magnitude?_eq_some_iff.mp hrest
  obtain ⟨hne, hlt, hvalue⟩ := (Text.ofDigits?_eq_some_iff r.base_le).mp hdigits
  refine ⟨⟨s, r, mark, digits, hmark, hne, hlt⟩, hvalue.trans_lt hm, ?_⟩
  rw [Admits, ← String.toList_inj, ← String.toList_inj, htoken]
  rcases hform with rfl | ⟨hr, rfl⟩
  · exact .inl (by simp [text])
  · exact .inr ⟨hr, by simp [plusText]⟩

theorem integer_text_of_lt (h : n.magnitude < 2 ^ 64) : integer n.text = .ok (signed64 n.value) :=
  (integer_of_admits (.inl rfl)).trans (if_pos h)

/-- The only plus sign of a literal is its sign. -/
theorem plus_notMem_tail (n : Numeral) : '+' ∉ n.text.toList.tail := by
  have hmarks : ∀ r : Radix, ∀ mark ∈ r.marks, '+' ∉ mark.toList := by
    intro r
    cases r <;> decide
  have hdigits : '+' ∉ n.digits := fun h =>
    absurd ((n.digits_lt '+' h).trans_le n.radix.base_le) (by decide)
  have hbody : '+' ∉ n.mark.toList ++ n.digits := by
    simp [hmarks n.radix n.mark n.mark_mem, hdigits]
  have htext : n.text.toList = n.sign.text.toList ++ (n.mark.toList ++ n.digits) := by
    simp [text]
  rw [htext]
  cases n.sign with
  | absent => exact fun h => hbody (List.mem_of_mem_tail h)
  | plus => exact hbody
  | minus => exact hbody

/-- A plus sign behind a mark is not in the grammar. -/
theorem text_ne_plusText {m : Numeral} (hr : m.radix ≠ .decimal) : n.text ≠ m.plusText := by
  intro h
  obtain ⟨letter, hmark, -⟩ := Radix.mark_cases hr m.mark_mem
  apply n.plus_notMem_tail
  rw [h, plusText]
  cases m.sign <;> simp [Sign.text, hmark]

def ofInt (i : Int) : Numeral where
  sign := if i < 0 then .minus else .absent
  radix := .decimal
  mark := ""
  digits := Nat.toDigits 10 i.natAbs
  mark_mem := List.mem_singleton_self _
  digits_ne_nil := Nat.toDigits_ne_nil
  digits_lt := (Text.positional_toDigits (by decide) (by decide) _).1

theorem text_ofInt (i : Int) : (ofInt i).text = toString i := by
  rw [Int.toString_eq_repr, Int.repr_eq_if]
  split_ifs with h
  · have habs : i.toNat = i.natAbs := by omega
    simp [text, ofInt, Sign.text, not_lt.mpr h, Nat.repr_eq_ofList_toDigits, habs]
  · have habs : (-i).toNat = i.natAbs := by omega
    simp [text, ofInt, Sign.text, not_le.mp h, Nat.repr_eq_ofList_toDigits, habs]

theorem magnitude_ofInt (i : Int) : (ofInt i).magnitude = i.natAbs :=
  (Text.positional_toDigits (by decide : 1 < 10) (by decide) i.natAbs).2

theorem value_ofInt (i : Int) : (ofInt i).value = i := by
  rw [value, magnitude_ofInt, ofInt]
  split_ifs with h
  · change -(i.natAbs : Int) = i
    omega
  · change (i.natAbs : Int) = i
    omega

end Numeral

theorem integer_toString {i : Int} (hlow : -2 ^ 63 ≤ i) (hhigh : i < 2 ^ 63) :
    integer (toString i) = .ok i := by
  have hmagnitude : (Numeral.ofInt i).magnitude < 2 ^ 64 := by
    rw [Numeral.magnitude_ofInt]
    omega
  rw [← Numeral.text_ofInt, Numeral.integer_text_of_lt hmagnitude, Numeral.value_ofInt, signed64,
    Int.bmod_eq_of_le]
  · omega
  · omega

/-- Digits behind a mark are read as a 64-bit pattern. -/
theorem integer_of_mark {r : Radix} {mark : String} (hmark : mark ∈ r.marks) {digits : List Char}
    {w : UInt64} (h : Text.ofDigits? r.base digits = some w.toNat) :
    integer (mark ++ .ofList digits) = .ok w.toInt64.toInt := by
  have hread :=
    integer?_of_magnitude .absent (magnitude?_eq_some_iff.mpr ⟨r, mark, hmark, digits, h, .inl rfl⟩)
  have htext : (mark ++ .ofList digits).toList =
      Sign.absent.text.toList ++ (mark.toList ++ digits) := by
    simp [Sign.text]
  have hpattern : w.toInt64.toInt = signed64 w.toNat := BitVec.toInt_eq_toNat_bmod _
  rw [integer, htext, hread, if_pos w.toNat_lt, hpattern]
  rfl

/-- A literal has its value modulo `2 ^ 64`, unless its magnitude has more than 64 bits. So signed
numbers written in decimal and patterns written in hexadecimal or binary are read back. -/
theorem integer_numeral (n : Numeral) (v : Int64) (w : UInt64) (width : Nat) :
    (if n.magnitude < 2 ^ 64 then ∃ i : Int64, integer n.text = .ok i.toInt ∧
      i.toInt ≡ n.value [ZMOD 2 ^ 64] else integer n.text = .error (.literal n.text)) ∧
    integer (toString v.toInt) = .ok v.toInt ∧
    integer ("0x" ++ Text.hex width w.toNat) = .ok w.toInt64.toInt ∧
    integer ("0x" ++ .ofList (Nat.toDigits 16 w.toNat)) = .ok w.toInt64.toInt ∧
    integer ("0b" ++ .ofList (Nat.toDigits 2 w.toNat)) = .ok w.toInt64.toInt := by
  have hhexadecimal : "0x" ∈ Radix.hexadecimal.marks := by decide
  have hbinary : "0b" ∈ Radix.binary.marks := by decide
  refine ⟨?_, integer_toString v.le_toInt v.toInt_lt, ?_, ?_, ?_⟩
  · split_ifs with h
    · refine ⟨.ofInt n.value, (Numeral.integer_text_of_lt h).trans (by rw [Int64.toInt_ofInt]; rfl),
        ?_⟩
      rw [Int64.toInt_ofInt]
      exact Int.bmod_emod
    · exact (Numeral.integer_of_admits (.inl rfl)).trans (if_neg h)
  · have hread := integer_of_mark hhexadecimal (Text.ofDigits?_hex width w.toNat)
    rwa [String.ofList_toList] at hread
  · exact integer_of_mark hhexadecimal (Text.ofDigits?_toDigits (by decide) (by decide) w.toNat)
  · exact integer_of_mark hbinary (Text.ofDigits?_toDigits (by decide) (by decide) w.toNat)

/-- A token is refused exactly if it is no literal below `2 ^ 64`, where the reader also takes a
marked literal with a plus sign behind its mark, which the grammar does not have. -/
theorem integer_eq_error_iff (token : String) :
    (integer token = .error (.literal token) ↔
      ¬∃ n : Numeral, n.magnitude < 2 ^ 64 ∧ n.Admits token) ∧
    (∀ v, integer token = .ok v ↔
      ∃ n : Numeral, n.magnitude < 2 ^ 64 ∧ n.Admits token ∧ v = signed64 n.value) ∧
    ∀ m n : Numeral, m.radix ≠ .decimal → n.text ≠ m.plusText := by
  refine ⟨⟨?_, fun hnone => ?_⟩, fun v => ⟨fun h => ?_, ?_⟩, fun m n hr =>
    Numeral.text_ne_plusText hr⟩
  · rintro herror ⟨n, hn, hadmits⟩
    rw [Numeral.integer_of_admits hadmits, if_pos hn] at herror
    cases herror
  · cases h : integer token with
    | ok v => exact absurd (Numeral.exists_of_integer h) hnone
    | error fault => rw [eq_literal_of_integer h]
  · obtain ⟨n, hn, hadmits⟩ := Numeral.exists_of_integer h
    rw [Numeral.integer_of_admits hadmits, if_pos hn] at h
    exact ⟨n, hn, hadmits, (Except.ok.inj h).symm⟩
  · rintro ⟨n, hn, hadmits, rfl⟩
    rw [Numeral.integer_of_admits hadmits, if_pos hn]

def marked : Numeral where
  sign := .minus
  radix := .hexadecimal
  mark := "0x"
  digits := ['1', 'F']
  mark_mem := by decide
  digits_ne_nil := by decide
  digits_lt := List.forall_mem_cons.mpr ⟨by decide, List.forall_mem_singleton.mpr (by decide)⟩

theorem integer_marked :
    (marked.radix ≠ .decimal ∧ marked.plusText = "-0x+1F" ∧ marked.text ≠ marked.plusText) ∧
      integer "-0x+1F" = .ok (-31) ∧
      ∃ n : Numeral, n.magnitude < 2 ^ 64 ∧ n.Admits "-0x+1F" ∧ -31 = signed64 n.value := by
  have hradix : marked.radix ≠ .decimal := by decide
  have hread : integer "-0x+1F" = .ok (-31) := by decide
  obtain ⟨-, hvalue, hgrammar⟩ := integer_eq_error_iff "-0x+1F"
  exact ⟨⟨hradix, by decide, hgrammar marked marked hradix⟩, hread, (hvalue (-31)).mp hread⟩

/-- The radix of a marked literal is read with a sign of its own. -/
theorem plus_behind_mark : integer "0x+1" = .ok 1 ∧ ¬∃ n : Numeral, n.text = "0x+1" := by
  refine ⟨by decide, ?_⟩
  rintro ⟨n, hn⟩
  exact n.plus_notMem_tail (by rw [hn]; decide)

end Literal

end PatchCode
