import Mathlib.Tactic
import PatchCode.Data
import PatchCode.Proofs.Codec
import PatchCode.Proofs.IntegerLiteral
import PatchCode.Proofs.Refusal

/-! Integer data. A directive with integer data lays down one group of bytes for each of its tokens,
and the group holds the low bits of the number that the token stands for; it is refused for the
first token that stands for none. -/

namespace PatchCode

namespace Bytes

/-- The bytes are the low bits of an integer, the most significant byte first. -/
def Holds (width : Nat) (v : Int) (bytes : List UInt8) : Prop :=
  bytes.length = width ∧ (toNat bytes : Int) = v % 2 ^ (8 * width)

theorem holds_ofInt (width : Nat) (v : Int) : Holds width v (ofInt width v) := by
  have hpow : 1 <<< (8 * width) = 256 ^ width := by rw [Nat.one_shiftLeft, pow_mul]; rfl
  have hlt : (v % (256 ^ width : Nat)).toNat < 256 ^ width := by
    have := Int.emod_lt_of_pos v (by positivity : (0 : Int) < (256 ^ width : Nat))
    omega
  refine ⟨length_ofNat _ _, ?_⟩
  rw [ofInt, toNat_ofNat, hpow, Nat.mod_eq_of_lt hlt,
    Int.toNat_of_nonneg (Int.emod_nonneg _ (by positivity)), pow_mul]
  norm_num

end Bytes

def Literal.IsInteger (token : String) : Prop := ∃ v, integer token = .ok v

namespace Element

variable {width : Nat} {token : String}

theorem encode_integer_eq_ok_iff {group : List UInt8} : (integer width).encode token = .ok group ↔
    ∃ v, Literal.integer token = .ok v ∧ Bytes.ofInt width v = group := by
  rw [encode]
  cases Literal.integer token <;> simp [Except.map]

theorem encode_integer_eq_error_iff {fault : Fault} :
    (integer width).encode token = .error fault ↔ Literal.integer token = .error fault := by
  rw [encode]
  cases Literal.integer token <;> simp [Except.map]

theorem exists_encode_integer_iff :
    (∃ group, (integer width).encode token = .ok group) ↔ Literal.IsInteger token := by
  simp only [encode_integer_eq_ok_iff]
  exact ⟨fun ⟨_, v, hv, _⟩ => ⟨v, hv⟩, fun ⟨v, hv⟩ => ⟨_, v, hv, rfl⟩⟩

end Element

namespace DataKind

theorem encode_literals {args : String} (element : Element) (h : Source.tokens args.toList ≠ []) :
    encode (literals element) args =
      ((Source.tokens args.toList).mapM element.encode).map List.flatten := by
  rw [encode]
  split
  next heq => exact absurd heq h
  next => rfl

theorem encode_literals_eq_ok_iff {args : String} (element : Element) {bytes : List UInt8} :
    encode (literals element) args = .ok bytes ↔ Source.tokens args.toList ≠ [] ∧
      ∃ groups, (Source.tokens args.toList).mapM element.encode = .ok groups ∧
        bytes = groups.flatten := by
  by_cases h : Source.tokens args.toList = []
  · simp [encode, h]
  · rw [encode_literals element h]
    cases (Source.tokens args.toList).mapM element.encode <;> simp [Except.map, h, eq_comm]

theorem mapM_eq_error_of_encode {args : String} {element : Element} {fault : Fault}
    (htokens : Source.tokens args.toList ≠ []) (h : encode (literals element) args = .error fault) :
    (Source.tokens args.toList).mapM element.encode = .error fault := by
  rw [encode_literals element htokens] at h
  cases hgroups : (Source.tokens args.toList).mapM element.encode with
  | error e =>
    rw [hgroups] at h
    cases h
    rfl
  | ok groups =>
    rw [hgroups] at h
    cases h

theorem encode_append {args more : String} (element : Element) (h : Source.tokens args.toList ≠ [])
    (hmore : Source.tokens more.toList ≠ []) : encode (literals element) (args ++ "," ++ more) = do
      let bytes ← encode (literals element) args
      let rest ← encode (literals element) more
      return bytes ++ rest := by
  have htokens : Source.tokens (args ++ "," ++ more).toList =
      Source.tokens args.toList ++ Source.tokens more.toList := by
    rw [String.toList_append, String.toList_append, List.append_assoc]
    exact Source.tokens_append (by decide) _ _
  have htogether : Source.tokens (args ++ "," ++ more).toList ≠ [] := by
    rw [htokens]
    exact List.append_ne_nil_of_left_ne_nil h _
  rw [encode_literals element h, encode_literals element hmore, encode_literals element htogether,
    htokens, List.mapM_append]
  cases (Source.tokens args.toList).mapM element.encode with
  | error fault => rfl
  | ok front =>
    cases (Source.tokens more.toList).mapM element.encode with
    | error fault => rfl
    | ok back => exact congrArg Except.ok List.flatten_append

theorem ofName?_integer {name : String} {width : Nat} :
    ofName? name = some (literals (.integer width)) ↔
    (name, width) ∈ [("u8", 1), ("s8", 1), ("u16", 2), ("s16", 2), ("u32", 4), ("s32", 4),
      ("u64", 8), ("s64", 8)] := by
  constructor
  · intro h
    unfold ofName? at h
    split at h <;> cases h <;> simp
  · intro h
    simp only [List.mem_cons, List.not_mem_nil, or_false, Prod.mk.injEq] at h
    rcases h with ⟨rfl, rfl⟩ | ⟨rfl, rfl⟩ | ⟨rfl, rfl⟩ | ⟨rfl, rfl⟩ | ⟨rfl, rfl⟩ | ⟨rfl, rfl⟩ |
      ⟨rfl, rfl⟩ | ⟨rfl, rfl⟩ <;> rfl

theorem ofName?_signed (bits : String) (width : Nat) :
    ofName? ("u" ++ bits) = some (literals (.integer width)) ↔
      ofName? ("s" ++ bits) = some (literals (.integer width)) := by
  rw [ofName?_integer, ofName?_integer]
  simp [← String.toList_inj]

/-- Integer data has one group of bytes for each token, as wide as its name says, or is refused for
the first token that is no integer. -/
theorem encode_integers (width : Nat) (args : String) :
    ((∃ bytes, encode (literals (.integer width)) args = .ok bytes) ↔
      Source.tokens args.toList ≠ [] ∧
      ∀ token ∈ Source.tokens args.toList, Literal.IsInteger token) ∧
    (∀ bytes, encode (literals (.integer width)) args = .ok bytes →
      ∃ groups, bytes = groups.flatten ∧
      List.Forall₂ (fun token group => ∃ v, Literal.integer token = .ok v ∧
        Bytes.Holds width v group) (Source.tokens args.toList) groups) ∧
    (∀ fault, encode (literals (.integer width)) args = .error fault →
      Source.tokens args.toList ≠ [] →
      ∃ front token back, Source.tokens args.toList = front ++ token :: back ∧
        (∀ t ∈ front, Literal.IsInteger t) ∧ ¬Literal.IsInteger token ∧ fault = .literal token) ∧
    (∀ more, Source.tokens args.toList ≠ [] → Source.tokens more.toList ≠ [] →
      encode (literals (.integer width)) (args ++ "," ++ more) = do
        let bytes ← encode (literals (.integer width)) args
        let rest ← encode (literals (.integer width)) more
        return bytes ++ rest) ∧
    (∀ bits, ofName? ("u" ++ bits) = some (literals (.integer width)) ↔
      ofName? ("s" ++ bits) = some (literals (.integer width))) ∧
    ∀ name, ofName? name = some (literals (.integer width)) ↔
      (name, width) ∈ [("u8", 1), ("s8", 1), ("u16", 2), ("s16", 2), ("u32", 4), ("s32", 4),
        ("u64", 8), ("s64", 8)] := by
  refine ⟨?_, fun bytes h => ?_, fun fault h htokens => ?_, fun more => encode_append _,
    fun bits => ofName?_signed bits width, fun name => ofName?_integer⟩
  · have hall : (∃ groups, (Source.tokens args.toList).mapM (Element.integer width).encode =
        .ok groups) ↔
        ∀ token ∈ Source.tokens args.toList, Literal.IsInteger token := by
      simp only [exists_mapM_eq_ok_iff, Element.exists_encode_integer_iff]
    simp only [← hall, encode_literals_eq_ok_iff]
    exact ⟨fun ⟨_, htokens, groups, h, _⟩ => ⟨htokens, groups, h⟩,
      fun ⟨htokens, groups, h⟩ => ⟨_, htokens, groups, h, rfl⟩⟩
  · obtain ⟨-, groups, hgroups, rfl⟩ := (encode_literals_eq_ok_iff _).mp h
    refine ⟨groups, rfl, (mapM_eq_ok_iff.mp hgroups).imp fun token group hgroup => ?_⟩
    obtain ⟨v, hv, rfl⟩ := Element.encode_integer_eq_ok_iff.mp hgroup
    exact ⟨v, hv, Bytes.holds_ofInt width v⟩
  · have hfault := mapM_eq_error_of_encode htokens h
    obtain ⟨front, token, back, heq, hfront, htoken⟩ := exists_first_of_mapM_eq_error hfault
    have htoken := Element.encode_integer_eq_error_iff.mp htoken
    refine ⟨front, token, back, heq, fun t ht => Element.exists_encode_integer_iff.mp (hfront t ht),
      ?_, Literal.eq_literal_of_integer htoken⟩
    rintro ⟨v, hv⟩
    cases htoken.symm.trans hv

/-- Two half words, the second cut to its low bits, and a list with two tokens that are no
integers. -/
theorem encode_integers_halves :
    encode (literals (.integer 2)) "-1, 0x12345678" = .ok [0xFF, 0xFF, 0x56, 0x78] ∧
    (∃ groups, [0xFF, 0xFF, 0x56, 0x78] = groups.flatten ∧
      List.Forall₂ (fun token group => ∃ v, Literal.integer token = .ok v ∧ Bytes.Holds 2 v group)
        (Source.tokens "-1, 0x12345678".toList) groups) ∧
    ∃ front token back, Source.tokens "(1) 2x 3y".toList = front ++ token :: back ∧
      (∀ t ∈ front, Literal.IsInteger t) ∧ ¬Literal.IsInteger token ∧
        Fault.literal "2x" = .literal token := by
  have hhalves : encode (literals (.integer 2)) "-1, 0x12345678" =
      .ok [0xFF, 0xFF, 0x56, 0x78] := by decide
  exact ⟨hhalves, (encode_integers 2 "-1, 0x12345678").2.1 _ hhalves,
    (encode_integers 2 "(1) 2x 3y").2.2.1 (.literal "2x") (by decide) (by decide)⟩

end DataKind

end PatchCode
