import Mathlib.Tactic
import PatchCode.Memory.Replay
import PatchCode.Proofs.Address
import PatchCode.Proofs.Positional
import PatchCode.Source.Line

/-! What is written down is read back: numbers from their bytes, words from their hexadecimal
digits, tokens from a line, records from their lines, and the type and address of a record from the
word that holds both. -/

namespace PatchCode

namespace Bytes

theorem foldl_toNat (bytes : List UInt8) (n : Nat) :
    bytes.foldl (fun n b => n * 256 + b.toNat) n = n * 256 ^ bytes.length + toNat bytes := by
  induction bytes generalizing n with
  | nil => simp [toNat]
  | cons b bytes ih =>
    rw [toNat, List.foldl_cons, List.foldl_cons, ih, ih (0 * 256 + b.toNat),
      List.length_cons, pow_succ]
    ring

theorem toNat_cons (b : UInt8) (bytes : List UInt8) :
    toNat (b :: bytes) = b.toNat * 256 ^ bytes.length + toNat bytes := by
  rw [toNat, List.foldl_cons, foldl_toNat]
  simp

theorem toNat_lt (bytes : List UInt8) : toNat bytes < 256 ^ bytes.length := by
  induction bytes with
  | nil => simp [toNat]
  | cons b bytes ih =>
    have hb := b.toNat_lt
    rw [toNat_cons, List.length_cons, pow_succ]
    nlinarith

theorem ofNat_succ (width n : Nat) :
    ofNat (width + 1) n = .ofNat (n / 256 ^ width) :: ofNat width n := by
  rw [ofNat, Nat.shiftRight_eq_div_pow, pow_mul]
  rfl

@[simp] theorem length_ofNat (width n : Nat) : (ofNat width n).length = width := by
  induction width with
  | zero => rfl
  | succ width ih => simp [ofNat, ih]

/-- Only the low bytes count. -/
theorem ofNat_congr {width m n : Nat} (h : m ≡ n [MOD 256 ^ width]) :
    ofNat width m = ofNat width n := by
  induction width with
  | zero => rfl
  | succ width ih =>
    have hdiv : m / 256 ^ width ≡ n / 256 ^ width [MOD 256] := by
      rw [Nat.ModEq, ← Nat.mod_mul_right_div_self, ← Nat.mod_mul_right_div_self, ← pow_succ, h]
    have hmod : m ≡ n [MOD 256 ^ width] := h.of_dvd (pow_dvd_pow 256 (Nat.le_succ width))
    rw [ofNat_succ, ofNat_succ, ih hmod]
    congr 1
    exact UInt8.toNat_inj.mp (by simpa [Nat.ModEq] using hdiv)

theorem ofNat_toNat (bytes : List UInt8) : ofNat bytes.length (toNat bytes) = bytes := by
  induction bytes with
  | nil => rfl
  | cons b bytes ih =>
    have hhead : (b.toNat * 256 ^ bytes.length + toNat bytes) / 256 ^ bytes.length = b.toNat := by
      rw [mul_comm, Nat.mul_add_div (by positivity), Nat.div_eq_of_lt (toNat_lt bytes), add_zero]
    have htail : b.toNat * 256 ^ bytes.length + toNat bytes ≡
        toNat bytes [MOD 256 ^ bytes.length] := by
      simp [Nat.ModEq]
    rw [List.length_cons, ofNat_succ, toNat_cons, hhead, UInt8.ofNat_toNat, ofNat_congr htail, ih]

theorem toNat_ofNat (width n : Nat) : toNat (ofNat width n) = n % 256 ^ width := by
  induction width with
  | zero => simp [ofNat, toNat, Nat.mod_one]
  | succ width ih =>
    have hsplit : n % 256 ^ (width + 1) =
        n % 256 ^ width + 256 ^ width * (n / 256 ^ width % 256) := by
      rw [pow_succ, Nat.mod_mul]
    rw [ofNat_succ, toNat_cons, length_ofNat, ih, UInt8.toNat_ofNat', hsplit]
    ring

theorem toNat_ofWord (w : UInt32) : toNat (ofWord w) = w.toNat :=
  (toNat_ofNat 4 w.toNat).trans (Nat.mod_eq_of_lt w.toNat_lt)

end Bytes

namespace Source

theorem tokens_append {c : Char} (hc : isSeparator c = true) (xs ys : List Char) :
    tokens (xs ++ c :: ys) = tokens xs ++ tokens ys := by
  rw [tokens, List.splitOnP_append_cons xs ys hc, List.filter_append, List.map_append,
    tokens, tokens]

def IsToken (s : String) : Prop := s ≠ "" ∧ ∀ c ∈ s.toList, isSeparator c = false

variable {s t : String} {ws : List String}

instance : Decidable (IsToken s) :=
  decidable_of_iff (s ≠ "" ∧ s.toList.all (!isSeparator ·) = true) (by simp [IsToken])

theorem IsToken.append (hs : IsToken s) (ht : IsToken t) : IsToken (s ++ t) := by
  refine ⟨fun h => hs.1 (String.append_eq_empty_iff.mp h).1, fun c hc => ?_⟩
  rw [String.toList_append, List.mem_append] at hc
  exact hc.elim (hs.2 c) (ht.2 c)

theorem tokens_of_isToken (hs : IsToken s) : tokens s.toList = [s] := by
  have hne : s.toList ≠ [] := fun h => hs.1 (String.toList_eq_nil_iff.mp h)
  rw [tokens, List.splitOnP_eq_singleton hs.2]
  simp [hne]

/-- Tokens with a blank between each two are read back. -/
theorem tokens_intercalate (hws : ∀ w ∈ ws, IsToken w) :
    tokens (" ".intercalate ws).toList = ws := by
  induction ws with
  | nil => rfl
  | cons w ws ih =>
    obtain ⟨hw, hws⟩ := List.forall_mem_cons.mp hws
    cases ws with
    | nil => simpa using tokens_of_isToken hw
    | cons v vs =>
      rw [String.intercalate_cons_cons, String.toList_append, String.toList_append,
        List.append_assoc]
      change tokens (w.toList ++ ' ' :: (" ".intercalate (v :: vs)).toList) = _
      rw [tokens_append (by decide), tokens_of_isToken hw, ih hws]
      rfl

theorem mem_intercalate {c : Char} (hc : c ∈ (" ".intercalate ws).toList) :
    c = ' ' ∨ ∃ w ∈ ws, c ∈ w.toList := by
  induction ws with
  | nil => simp at hc
  | cons w ws ih =>
    cases ws with
    | nil => exact .inr ⟨w, List.mem_singleton_self w, by simpa using hc⟩
    | cons v vs =>
      simp only [String.intercalate_cons_cons, String.toList_append, List.mem_append] at hc
      rcases hc with (hc | hc) | hc
      · exact .inr ⟨w, List.mem_cons_self, hc⟩
      · exact .inl (by simpa using hc)
      · obtain hc | ⟨u, hu, hc⟩ := ih hc
        · exact .inl hc
        · exact .inr ⟨u, List.mem_cons_of_mem w hu, hc⟩

end Source

namespace Text

def hexAlphabet : List Char := "0123456789ABCDEF".toList

theorem toUpper_digitChar_mem {d : Nat} (hd : d < 16) : d.digitChar.toUpper ∈ hexAlphabet := by
  interval_cases d <;> decide

theorem hexDigits_eq (n : Nat) :
    hexDigits n = (if n < 16 then [] else hexDigits (n / 16)) ++ [(n % 16).digitChar.toUpper] := by
  unfold hexDigits
  rw [Nat.toDigits_eq_if (by decide)]
  split_ifs with h
  · simp [Nat.mod_eq_of_lt h]
  · simp

theorem mem_hexDigits (n : Nat) : ∀ c ∈ hexDigits n, c ∈ hexAlphabet := by
  induction n using Nat.strongRecOn with
  | _ n ih =>
    have hd := toUpper_digitChar_mem (Nat.mod_lt n (by decide : 16 > 0))
    intro c hc
    rw [hexDigits_eq, List.mem_append, List.mem_singleton] at hc
    rcases hc with hc | rfl
    · split_ifs at hc with h
      · simp at hc
      · exact ih (n / 16) (by omega) c hc
    · exact hd

theorem toList_hex (width n : Nat) :
    (hex width n).toList = List.replicate (width - (hexDigits n).length) '0' ++ hexDigits n := by
  simp [hex, List.leftpad]

theorem mem_hex {width n : Nat} : ∀ c ∈ (hex width n).toList, c ∈ hexAlphabet := by
  intro c hc
  rw [toList_hex, List.mem_append] at hc
  rcases hc with hc | hc
  · rw [List.eq_of_mem_replicate hc]; decide
  · exact mem_hexDigits n c hc

theorem length_hex {width n : Nat} (hw : 0 < width) (h : n < 16 ^ width) :
    (hex width n).toList.length = width := by
  have hlen : (hexDigits n).length ≤ width := by
    rw [hexDigits, List.length_map]
    exact (Nat.length_toDigits_le_iff (by decide) hw).mpr h
  rw [toList_hex, List.length_append, List.length_replicate]
  omega

theorem ofDigits?_hex (width n : Nat) : ofDigits? 16 (hex width n).toList = some n := by
  have hne : hexDigits n ≠ [] := by
    rw [hexDigits_eq]
    simp
  rw [toList_hex, ofDigits?_zeros (by decide) (by decide) _ hne, hexDigits,
    ofDigits?_map (by decide) digitValue_toUpper, ofDigits?_toDigits (by decide) (by decide)]

theorem isToken_hex (width n : Nat) : Source.IsToken (hex width n) := by
  constructor
  · intro h
    have hread := ofDigits?_hex width n
    rw [h] at hread
    cases hread
  · have hall : hexAlphabet.all (fun c => !Source.isSeparator c) = true := by decide
    intro c hc
    simpa using List.all_eq_true.mp hall c (mem_hex c hc)

/-- Signs and blanks are no digits. -/
theorem hexAlphabet_plain : ∀ c ∈ hexAlphabet, c ≠ '+' ∧ isBlank c = false := by
  have hall : hexAlphabet.all (fun c => c != '+' && !isBlank c) = true := by decide
  intro c hc
  simpa using List.all_eq_true.mp hall c hc

theorem ofUnsigned?_hex (width n : Nat) : ofUnsigned? 16 (hex width n).toList = some n := by
  unfold ofUnsigned?
  split
  next cs heq =>
    have hplus := hexAlphabet_plain '+' (mem_hex '+' (by rw [heq]; exact List.mem_cons_self))
    exact absurd rfl hplus.1
  next => exact ofDigits?_hex width n

theorem trim_of_ends {cs : List Char} (hfirst : ∀ c ∈ cs.head?, isBlank c = false)
    (hlast : ∀ c ∈ cs.getLast?, isBlank c = false) : trim cs = cs := by
  have hstart : trimStart cs = cs := by
    cases cs with
    | nil => rfl
    | cons c cs => simp [trimStart, hfirst c rfl]
  rw [trim, hstart, trimEnd]
  have hrev : cs.reverse.dropWhile isBlank = cs.reverse := by
    cases h : cs.reverse with
    | nil => rfl
    | cons c ds =>
      have hc : c ∈ cs.getLast? := by rw [← List.head?_reverse, h]; rfl
      simp [hlast c hc]
  rw [hrev, List.reverse_reverse]

end Text

namespace Record

theorem field?_hex (w : UInt32) : field? (Text.hex 8 w.toNat).toList = some w := by
  have hlen : (Text.hex 8 w.toNat).toList.length = 8 := Text.length_hex (by decide) w.toNat_lt
  rw [field?, if_pos hlen, Text.ofUnsigned?_hex, Option.map_some, UInt32.ofNat_toNat]

/-- The text of a line: sixteen digits with a blank after the eighth. -/
theorem toList_render (r : Record) :
    r.render.toList =
      (Text.hex 8 r.left.toNat).toList ++ ' ' :: (Text.hex 8 r.right.toNat).toList := by
  simp [render]

theorem hex_ne_nil (w : UInt32) : (Text.hex 8 w.toNat).toList ≠ [] :=
  List.ne_nil_of_length_pos (by rw [Text.length_hex (by decide) w.toNat_lt]; decide)

theorem trim_render (r : Record) : Text.trim r.render.toList = r.render.toList := by
  apply Text.trim_of_ends
  · intro c hc
    rw [toList_render, List.head?_append_of_ne_nil _ (hex_ne_nil r.left)] at hc
    exact (Text.hexAlphabet_plain c (Text.mem_hex c (List.mem_of_mem_head? hc))).2
  · intro c hc
    rw [toList_render, List.getLast?_append_of_ne_nil _ (List.cons_ne_nil _ _),
      List.getLast?_cons_of_ne_nil (hex_ne_nil r.right)] at hc
    exact (Text.hexAlphabet_plain c (Text.mem_hex c (List.mem_of_mem_getLast? hc))).2

theorem ofLine?_render (r : Record) : ofLine? r.render = some r := by
  have hleft : ∀ c ∈ (Text.hex 8 r.left.toNat).toList, decide (c ≠ ' ') = true := by
    intro c hc
    rw [decide_eq_true_eq]
    rintro rfl
    exact absurd (Text.hexAlphabet_plain ' ' (Text.mem_hex ' ' hc)).2 (by decide)
  have htake : r.render.toList.takeWhile (· ≠ ' ') = (Text.hex 8 r.left.toNat).toList := by
    rw [toList_render, List.takeWhile_append_of_pos hleft]
    simp
  have hdrop : r.render.toList.dropWhile (· ≠ ' ') = ' ' :: (Text.hex 8 r.right.toNat).toList := by
    rw [toList_render, List.dropWhile_append_of_pos hleft]
    simp
  rw [ofLine?]
  simp only [trim_render, htake, hdrop, field?_hex]

theorem render_injective : Function.Injective render := by
  intro r s h
  have hread := ofLine?_render r
  rw [h, ofLine?_render s] at hread
  exact (Option.some.inj hread).symm

theorem mapM_ofLine?_render (records : List Record) :
    (records.map render).mapM ofLine? = some records := by
  induction records with
  | nil => rfl
  | cons r rs ih => simp [List.mapM_cons, ofLine?_render, ih]

/-- Types are even and addresses have 25 bits, so the two share no bit. -/
theorem toNat_codeWord {code : UInt32} (heven : code.toNat % 2 = 0) (hlt : code.toNat < 256)
    (a : Address) :
    (codeWord code a).toNat = code.toNat * 2 ^ 24 + a.toNat % 2 ^ 25 := by
  have hshift : (code <<< 24).toNat = (code.toNat / 2) <<< 25 := by
    rw [UInt32.toNat_shiftLeft, Nat.shiftLeft_eq, Nat.shiftLeft_eq]
    change code.toNat * 2 ^ 24 % 2 ^ 32 = _
    omega
  have hlow : a.toNat % 2 ^ 25 < 2 ^ 25 := Nat.mod_lt _ (by decide)
  rw [codeWord, UInt32.toNat_or, hshift, Address.toNat_inRecord,
    ← Nat.shiftLeft_add_eq_or_of_lt hlow, Nat.shiftLeft_eq]
  omega

end Record

namespace Replay

theorem and_even {n : Nat} (h : n < 256) : n &&& 0xFE = n / 2 * 2 :=
  (by decide +kernel : ∀ n : Fin 256, n.val &&& 0xFE = n.val / 2 * 2) ⟨n, h⟩

theorem toNat_code (r : Record) : (code r).toNat = r.left.toNat / 2 ^ 25 * 2 := by
  have hlt := r.left.toNat_lt
  have hshift : (r.left >>> 24).toNat = r.left.toNat / 2 ^ 24 := by
    rw [UInt32.toNat_shiftRight, Nat.shiftRight_eq_div_pow]; rfl
  rw [code, UInt32.toNat_and, hshift]
  change r.left.toNat / 2 ^ 24 &&& 0xFE = _
  rw [and_even (by omega)]
  omega

theorem code_codeWord {c : UInt32} (heven : c.toNat % 2 = 0) (hlt : c.toNat < 256) (a : Address)
    (right : UInt32) :
    code ⟨Record.codeWord c a, right⟩ = c := by
  apply UInt32.toNat_inj.mp
  rw [toNat_code, Record.toNat_codeWord heven hlt]
  omega

theorem inRecord_codeWord {c : UInt32} (heven : c.toNat % 2 = 0) (hlt : c.toNat < 256)
    (a : Address) :
    Address.inRecord (Record.codeWord c a) = a.inRecord := by
  apply UInt32.toNat_inj.mp
  rw [Address.toNat_inRecord, Address.toNat_inRecord, Record.toNat_codeWord heven hlt]
  omega

end Replay

end PatchCode
