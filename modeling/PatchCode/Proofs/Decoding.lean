import Mathlib.Tactic
import PatchCode.Assembly
import PatchCode.Proofs.Codec
import PatchCode.Proofs.Mnemonics

/-! Instruction words decode back to their operands. The operands of a line are read into the slots
of its word, and are refused exactly if a slot has no value, so a word tells the base instruction
and the fields of its line. -/

namespace PatchCode

/-- An operand that is accepted gives the value of a slot, and one that is refused gives none. -/
inductive Matches {α : Type} (view : α → Nat) : Except Fault α → Option Nat → Prop
  | accepted (x : α) : Matches view (.ok x) (some (view x))
  | refused (fault : Fault) : Matches view (.error fault) none

namespace Matches

variable {operands : List String} {i : Nat} {token : String} {address : Address}

theorem register (letters token : String) :
    Matches BitVec.toNat (Operand.register letters token)
      ((Operand.register? letters token).map (· % 32)) := by
  unfold Operand.register
  cases Operand.register? letters token with
  | none => exact .refused _
  | some n => exact .accepted (BitVec.ofNat 5 n)

theorem general (h : operands[i]? = some token) :
    Matches BitVec.toNat (Operand.general token)
      (Content.value? operands address (.general i)) := by
  simp only [Content.value?, h, Option.bind_some]
  unfold Operand.general Content.generalNumber?
  generalize String.ofList (token.toList.map Char.toLower) = name
  by_cases hsp : name = "sp"
  · subst hsp
    exact .accepted 1
  by_cases hrtoc : name = "rtoc"
  · subst hrtoc
    exact .accepted 2
  simpa only [hsp, hrtoc] using register "r" token

theorem float (h : operands[i]? = some token) :
    Matches BitVec.toNat (Operand.float token) (Content.value? operands address (.float i)) := by
  simp only [Content.value?, h, Option.bind_some]
  exact register "f" token

theorem condition (h : operands[i]? = some token) :
    Matches BitVec.toNat (Operand.conditionField token)
      (Content.value? operands address (.condition i)) := by
  simp only [Content.value?, h, Option.bind_some]
  unfold Operand.conditionField Operand.register
  cases Operand.register? "cr" token with
  | none => exact .refused _
  | some n =>
    have hvalue : ((BitVec.ofNat 5 n).setWidth 3).toNat = n % 8 := by
      simp only [BitVec.toNat_setWidth, BitVec.toNat_ofNat]
      omega
    rw [Option.map_some, ← hvalue]
    exact .accepted _

theorem integer {α : Type} {view : α → Nat} {f : Int → α} {g : Int → Nat}
    (hview : ∀ n, view (f n) = g n) (token : String) :
    Matches view ((Literal.integer token).map f) ((Content.integer? token).map g) := by
  unfold Literal.integer Content.integer?
  cases Literal.integer? token.toList with
  | none => exact .refused _
  | some n =>
    rw [Option.map_some, ← hview]
    exact .accepted _

theorem literal {width : Nat} (h : operands[i]? = some token) :
    Matches BitVec.toNat (Operand.literal width token)
      (Content.value? operands address (.literal width i)) := by
  simp only [Content.value?, h, Option.bind_some]
  exact integer (fun n => by simp [BitVec.toNat_ofInt]) token

theorem negated {width : Nat} (h : operands[i]? = some token) :
    Matches (fun x => (-x).toNat) (Operand.literal width token)
      (Content.value? operands address (.negated width i)) := by
  simp only [Content.value?, h, Option.bind_some]
  exact integer (fun n => by simp [← BitVec.ofInt_neg, BitVec.toNat_ofInt]) token

/-- The words to a target are the bits of its distance above the lowest two. -/
theorem distance {width : Nat} (hwidth : width + 2 ≤ 32) (h : operands[i]? = some token) :
    Matches (fun x => (x.extractLsb' 2 width).toNat) (Form.displacement token address)
      (Content.value? operands address (.distance (width + 2) i)) := by
  have hview : ∀ n : Int, ((BitVec.ofInt 32 n - address.toBitVec).extractLsb' 2 width).toNat =
      ((n - address.toNat) % 2 ^ (width + 2)).toNat / 4 := by
    intro n
    have hdifference : BitVec.ofInt 32 n - address.toBitVec =
        BitVec.ofInt 32 (n - address.toNat) := by
      rw [sub_eq_add_neg n, BitVec.ofInt_add, BitVec.ofInt_neg, ← BitVec.sub_eq_add_neg,
        BitVec.ofInt_natCast]
      simp
    have hlow : ((n - address.toNat) % 2 ^ (width + 2)).toNat =
        ((n - address.toNat) % 2 ^ 32).toNat % 2 ^ (width + 2) := by
      have hdvd : (2 : Int) ^ (width + 2) ∣ 2 ^ 32 := pow_dvd_pow 2 hwidth
      rw [← Int.emod_emod_of_dvd _ hdvd,
        Int.toNat_emod (Int.emod_nonneg _ (by decide)) (by positivity)]
      rfl
    rw [hlow, hdifference, BitVec.extractLsb'_toNat, BitVec.toNat_ofInt, Nat.shiftRight_eq_div_pow,
      ← Nat.mod_mul_right_div_self, Nat.pow_add']
    rfl
  simp only [Content.value?, h, Option.bind_some]
  unfold Form.displacement Operand.literal
  have hmap : ((Literal.integer token).map (BitVec.ofInt 32)).map (· - address.toBitVec) =
      (Literal.integer token).map fun n => BitVec.ofInt 32 n - address.toBitVec := by
    cases Literal.integer token <;> rfl
  rw [hmap]
  exact integer (f := fun n => BitVec.ofInt 32 n - address.toBitVec) hview token

end Matches

inductive Decoded (layout : Layout) : Except Fault Instruction → Option (List Nat) → Prop
  | accepted {i : Instruction} {values : List Nat} (h : layout.read i.word.toNat = some values) :
    Decoded layout (.ok i) (some values)
  | refused (fault : Fault) : Decoded layout (.error fault) none

namespace Content

variable {operands : List String} {address : Address}

theorem collect_eq_none {c : Content} (h : c.value? operands address = none) {cs : List Content}
    (hc : c ∈ cs) (values : List Nat) : collect operands address cs values = none := by
  induction cs generalizing values with
  | nil => simp at hc
  | cons d ds ih =>
    rcases List.mem_cons.mp hc with rfl | hmem
    · rw [collect, h, Option.bind_none]
    · rw [collect]
      simp [ih hmem]

variable {i : Nat}

theorem ofInt_of_literal {width : Nat} {x : BitVec width}
    (h : value? operands address (.literal width i) = some x.toNat) :
    ∃ n, operands[i]?.bind integer? = some n ∧ x = BitVec.ofInt width n := by
  obtain ⟨n, hn, hx⟩ := Option.map_eq_some_iff.mp h
  refine ⟨n, hn, BitVec.eq_of_toNat_eq ?_⟩
  rw [← hx, BitVec.toNat_ofInt]
  norm_cast

theorem negated_of_literal {width : Nat} {x : BitVec width}
    (h : value? operands address (.literal width i) = some x.toNat) :
    value? operands address (.negated width i) = some (-x).toNat := by
  obtain ⟨n, hn, rfl⟩ := ofInt_of_literal h
  simp [value?, hn, ← BitVec.ofInt_neg, BitVec.toNat_ofInt]

theorem upTo_of_literal {x : BitVec 5} (h : value? operands address (.literal 5 i) = some x.toNat) :
    value? operands address (.upTo i) = some (31 - x).toNat := by
  obtain ⟨n, hn, rfl⟩ := ofInt_of_literal h
  have hsub : (31 - BitVec.ofInt 5 n).toNat = 31 - (n % 32).toNat := by
    have hlast : (31 : BitVec 5).toNat = 31 := rfl
    rw [BitVec.toNat_sub, BitVec.toNat_ofInt, hlast]
    omega
  rw [value?, hn, Option.map_some, hsub]

end Content

namespace Decoded

variable {layout : Layout} {operands : List String} {address : Address} {α : Type} {view : α → Nat}
  {e : Except Fault α} {f : α →
    Except Fault Instruction} {c : Content} {cs : List Content} {values : List Nat}

/-- The next slot holds the operand that is read next. -/
theorem next (h : Matches view e (c.value? operands address))
    (hrest : ∀ x, c.value? operands address = some (view x) →
      Decoded layout (f x) (Content.collect operands address cs (values ++ [view x]))) :
    Decoded layout (e >>= f) (Content.collect operands address (c :: cs) values) := by
  rw [Content.collect]
  generalize c.value? operands address = o at h hrest
  cases h with
  | accepted x => exact hrest x rfl
  | refused fault => exact .refused fault

/-- An operand is read before those of the slots in front of its own. -/
theorem ahead (h : Matches view e (c.value? operands address)) (hc : c ∈ cs)
    (hrest : ∀ x, c.value? operands address = some (view x) →
      Decoded layout (f x) (Content.collect operands address cs values)) :
    Decoded layout (e >>= f) (Content.collect operands address cs values) := by
  generalize ho : c.value? operands address = o at h hrest
  cases h with
  | accepted x => exact hrest x rfl
  | refused fault =>
    rw [Content.collect_eq_none ho hc]
    exact .refused fault

/-- The next slot holds what is known. -/
theorem known {r : Except Fault Instruction} {n : Nat} (h : c.value? operands address = some n)
    (hrest : Decoded layout r (Content.collect operands address cs (values ++ [n]))) :
    Decoded layout r (Content.collect operands address (c :: cs) values) := by
  rwa [Content.collect, h, Option.bind_some]

theorem of_length {u : Usage} {r : Except Fault Instruction} (hlength : operands.length = u.count)
    (h : Decoded layout r (Content.collect operands address u.contents [])) :
    Decoded layout r (u.values? operands address) := by
  rwa [Usage.values?, Usage.complete?, if_pos hlength, Option.bind_some]

theorem of_defaults {u : Usage} {r : Except Fault Instruction} (hlength : operands.length ≠ u.count)
    (hdefaults : (u.defaults ++ operands).length = u.count)
    (h : Decoded layout r (Content.collect (u.defaults ++ operands) address u.contents [])) :
    Decoded layout r (u.values? operands address) := by
  rwa [Usage.values?, Usage.complete?, if_neg hlength, if_pos hdefaults, Option.bind_some]

end Decoded

namespace Form

/-- The operands of a form are read into the slots of its layout, and are refused exactly if a slot
has no value. -/
def Decodes (form : Form) : Prop := ∀ mnemonic base address operands,
  Decoded form.layout (form.read mnemonic operands address)
    ((form.usage base).values? operands address)

theorem decodes_bare (i : Instruction) : Decodes (.bare i)
  | _, _, _, [] =>
    match i with
    | .immediate opcode d a value => .accepted (Layout.read_immediate opcode d a value)
    | .jumpRegister extended link => .accepted (Layout.read_jumpRegister extended link)
    | .registers .. | .rotate .. | .special .. | .jump .. | .branch .. =>
      .accepted (Layout.read_first _)
  | _, _, _, _ :: _ => by
    cases i <;> exact .refused _

theorem decodes_arithmetic (opcode : BitVec 6) : Decodes (.arithmetic opcode)
  | _, _, _, [_, _, _] =>
    .of_length rfl <| .next (.general rfl) fun d _ => .next (.general rfl) fun a _ =>
      .next (.literal rfl) fun value _ => .accepted (Layout.read_immediate opcode d a value)
  | _, _, _, [] | _, _, _, [_] | _, _, _, [_, _] | _, _, _, _ :: _ :: _ :: _ :: _ => .refused _

theorem decodes_load (opcode : BitVec 6) : Decodes (.load opcode)
  | _, _, _, [_, _] =>
    .of_length rfl <| .next (.general rfl) fun d _ => .known rfl <|
      .next (.literal rfl) fun value _ => .accepted (Layout.read_immediate opcode d 0 value)
  | _, _, _, [] | _, _, _, [_] | _, _, _, _ :: _ :: _ :: _ => .refused _

theorem decodes_subtractImmediate : Decodes .subtractImmediate
  | _, _, _, [_, _, _] =>
    .of_length rfl <|
      .ahead (c := .negated 16 2) (.negated rfl) (by simp [usage]) fun value hvalue =>
      .next (.general rfl) fun d _ => .next (.general rfl) fun a _ => .known hvalue <|
        .accepted (Layout.read_immediate 14 d a (-value))
  | _, _, _, [] | _, _, _, [_] | _, _, _, [_, _] | _, _, _, _ :: _ :: _ :: _ :: _ => .refused _

theorem decodes_logical (opcode : BitVec 6) : Decodes (.logical opcode)
  | _, _, _, [_, _, _] =>
    .of_length rfl <| .next (.general rfl) fun s _ => .next (.general rfl) fun a _ =>
      .next (.literal rfl) fun value _ => .accepted (Layout.read_immediate opcode s a value)
  | _, _, _, [] | _, _, _, [_] | _, _, _, [_, _] | _, _, _, _ :: _ :: _ :: _ :: _ => .refused _

theorem decodes_compareImmediate (opcode : BitVec 6) : Decodes (.compareImmediate opcode)
  | _, _, _, [_, _] =>
    .of_defaults (by simp [usage]) rfl <| .known rfl <| .next (.general rfl) fun a _ =>
      .next (.literal rfl) fun value _ => .accepted (Layout.read_compareImmediate opcode 0 a value)
  | _, _, _, [_, _, _] =>
    .of_length rfl <| .next (.condition rfl) fun field _ => .next (.general rfl) fun a _ =>
      .next (.literal rfl) fun value _ =>
        .accepted (Layout.read_compareImmediate opcode field a value)
  | _, _, _, [] | _, _, _, [_] | _, _, _, _ :: _ :: _ :: _ :: _ => .refused _

theorem decodes_compare (extended : BitVec 10) : Decodes (.compare extended)
  | _, _, _, [_, _] =>
    .of_defaults (by simp [usage]) rfl <| .known rfl <| .next (.general rfl) fun a _ =>
      .next (.general rfl) fun b _ => .accepted (Layout.read_compareRegisters 0 a b extended)
  | _, _, _, [_, _, _] =>
    .of_length rfl <| .next (.condition rfl) fun field _ => .next (.general rfl) fun a _ =>
      .next (.general rfl) fun b _ => .accepted (Layout.read_compareRegisters field a b extended)
  | _, _, _, [] | _, _, _, [_] | _, _, _, _ :: _ :: _ :: _ :: _ => .refused _

theorem decodes_memory (opcode : BitVec 6) : Decodes (.memory opcode)
  | _, _, _, [_, _, _] =>
    .of_length rfl <| .next (.general rfl) fun d _ => .next (.general rfl) fun a _ =>
      .next (.literal rfl) fun offset _ => .accepted (Layout.read_immediate opcode d a offset)
  | _, _, _, [] | _, _, _, [_] | _, _, _, [_, _] | _, _, _, _ :: _ :: _ :: _ :: _ => .refused _

theorem decodes_floatMemory (opcode : BitVec 6) : Decodes (.floatMemory opcode)
  | _, _, _, [_, _, _] =>
    .of_length rfl <| .next (.float rfl) fun d _ => .next (.general rfl) fun a _ =>
      .next (.literal rfl) fun offset _ => .accepted (Layout.read_immediate opcode d a offset)
  | _, _, _, [] | _, _, _, [_] | _, _, _, [_, _] | _, _, _, _ :: _ :: _ :: _ :: _ => .refused _

theorem decodes_arithmeticRegisters (extended : BitVec 10) : Decodes (.arithmeticRegisters extended)
  | _, _, _, [_, _, _] =>
    .of_length rfl <| .next (.general rfl) fun d _ => .next (.general rfl) fun a _ =>
      .next (.general rfl) fun b _ => .accepted (Layout.read_registers d a b extended)
  | _, _, _, [] | _, _, _, [_] | _, _, _, [_, _] | _, _, _, _ :: _ :: _ :: _ :: _ => .refused _

theorem decodes_subtract : Decodes .subtract
  | _, _, _, [_, _, _] =>
    .of_length rfl <| .next (.general rfl) fun d _ => .next (.general rfl) fun b _ =>
      .next (.general rfl) fun a _ => .accepted (Layout.read_registers d b a 40)
  | _, _, _, [] | _, _, _, [_] | _, _, _, [_, _] | _, _, _, _ :: _ :: _ :: _ :: _ => .refused _

theorem decodes_negate : Decodes .negate
  | _, _, _, [_, _] =>
    .of_length rfl <| .next (.general rfl) fun d _ => .next (.general rfl) fun a _ =>
      .accepted (Layout.read_negation d a)
  | _, _, _, [] | _, _, _, [_] | _, _, _, _ :: _ :: _ :: _ => .refused _

theorem decodes_logicalRegisters (extended : BitVec 10) : Decodes (.logicalRegisters extended)
  | _, _, _, [_, _, _] =>
    .of_length rfl <| .next (.general rfl) fun s _ => .next (.general rfl) fun a _ =>
      .next (.general rfl) fun b _ => .accepted (Layout.read_registers s a b extended)
  | _, _, _, [] | _, _, _, [_] | _, _, _, [_, _] | _, _, _, _ :: _ :: _ :: _ :: _ => .refused _

theorem decodes_move : Decodes .move
  | _, _, _, [_, _] =>
    .of_length rfl <| .next (.general rfl) fun s hs => .next (.general rfl) fun a _ => .known hs <|
      .accepted (Layout.read_registers s a s 444)
  | _, _, _, [] | _, _, _, [_] | _, _, _, _ :: _ :: _ :: _ => .refused _

theorem decodes_rotate : Decodes .rotate
  | _, _, _, [_, _, _, _, _] =>
    .of_length rfl <| .ahead (c := .general 0) (.general rfl) (by simp [usage]) fun a ha =>
      .next (.general rfl) fun s _ => .known ha <| .next (.literal rfl) fun shift _ =>
        .next (.literal rfl) fun first _ => .next (.literal rfl) fun last _ =>
          .accepted (Layout.read_rotation s a shift first last)
  | _, _, _, [] | _, _, _, [_] | _, _, _, [_, _] | _, _, _, [_, _, _] | _, _, _, [_, _, _, _]
  | _, _, _, _ :: _ :: _ :: _ :: _ :: _ :: _ => .refused _

theorem decodes_shiftLeft : Decodes .shiftLeft
  | _, _, _, [_, _, _] =>
    .of_length rfl <| .ahead (c := .literal 5 2) (.literal rfl) (by simp [usage]) fun n hn =>
      .ahead (c := .general 0) (.general rfl) (by simp [usage]) fun a ha =>
        .next (.general rfl) fun s _ =>
        .known ha <| .known hn <| .known rfl <| .known (Content.upTo_of_literal hn) <|
          .accepted (Layout.read_rotation s a n 0 (31 - n))
  | _, _, _, [] | _, _, _, [_] | _, _, _, [_, _] | _, _, _, _ :: _ :: _ :: _ :: _ => .refused _

theorem decodes_shiftRight : Decodes .shiftRight
  | _, _, _, [_, _, _] =>
    .of_length rfl <| .ahead (c := .literal 5 2) (.literal rfl) (by simp [usage]) fun n hn =>
      .ahead (c := .general 0) (.general rfl) (by simp [usage]) fun a ha =>
        .next (.general rfl) fun s _ =>
        .known ha <| .known (Content.negated_of_literal hn) <| .known hn <| .known rfl <|
          .accepted (Layout.read_rotation s a (-n) n 31)
  | _, _, _, [] | _, _, _, [_] | _, _, _, [_, _] | _, _, _, _ :: _ :: _ :: _ :: _ => .refused _

theorem decodes_special (number extended : BitVec 10) : Decodes (.special number extended)
  | _, _, _, [_] =>
    .of_length rfl <| .next (.general rfl) fun d _ =>
      .accepted (Layout.read_special d number extended)
  | _, _, _, [] | _, _, _, _ :: _ :: _ => .refused _

theorem decodes_jump (link : Bool) : Decodes (.jump link)
  | _, _, _, [_] =>
    .of_length rfl <| .next (.distance (by decide) rfl) fun x _ =>
      .accepted (Layout.read_jump (x.extractLsb' 2 24) link)
  | _, _, _, [] | _, _, _, _ :: _ :: _ => .refused _

theorem decodes_branch (options : BitVec 5) (bit : BitVec 2) : Decodes (.branch options bit)
  | _, _, _, [_] =>
    .of_defaults (by simp [usage]) rfl <| .known rfl <| .next (.distance (by decide) rfl) fun x _ =>
      .accepted (Layout.read_branch options 0 bit (x.extractLsb' 2 14))
  | _, _, _, [_, _] =>
    .of_length rfl <| .next (.condition rfl) fun field _ =>
      .next (.distance (by decide) rfl) fun x _ =>
      .accepted (Layout.read_branch options field bit (x.extractLsb' 2 14))
  | _, _, _, [] | _, _, _, _ :: _ :: _ :: _ => .refused _

theorem decodes (form : Form) : form.Decodes := by
  cases form with
  | bare i => exact decodes_bare i
  | arithmetic opcode => exact decodes_arithmetic opcode
  | load opcode => exact decodes_load opcode
  | subtractImmediate => exact decodes_subtractImmediate
  | logical opcode => exact decodes_logical opcode
  | compareImmediate opcode => exact decodes_compareImmediate opcode
  | compare extended => exact decodes_compare extended
  | memory opcode => exact decodes_memory opcode
  | floatMemory opcode => exact decodes_floatMemory opcode
  | arithmeticRegisters extended => exact decodes_arithmeticRegisters extended
  | subtract => exact decodes_subtract
  | negate => exact decodes_negate
  | logicalRegisters extended => exact decodes_logicalRegisters extended
  | move => exact decodes_move
  | rotate => exact decodes_rotate
  | shiftLeft => exact decodes_shiftLeft
  | shiftRight => exact decodes_shiftRight
  | special number extended => exact decodes_special number extended
  | jump link => exact decodes_jump link
  | branch options bit => exact decodes_branch options bit

end Form

theorem mem_of_lookup {α : Type} {key : String} {value : α} {entries : List (String × α)}
    (h : entries.lookup key = some value) : (key, value) ∈ entries := by
  obtain ⟨front, back, rfl, -⟩ := List.lookup_eq_some_iff.mp h
  simp

namespace Instruction

/-- The bytes of a word, read by the layout of a base instruction, hold these values and nothing
else. -/
def Fits (word : UInt32) (base : String) (values : List Nat) : Prop :=
  ∃ layout, Layout.ofBase.lookup base = some layout ∧ layout.width = 32 ∧
    layout.read (Bytes.toNat (Bytes.ofWord word)) = some values

/-- A line is either accepted and has fields, which its word fits, or refused and has none. -/
theorem fits_ofTokens (mnemonic : String) (operands : List String) (address : Address) :
    (∃ i base values, ofTokens mnemonic operands address = .ok i ∧
        expand? mnemonic operands address = some (base, values) ∧ Fits i.word base values) ∨
      ∃ fault, ofTokens mnemonic operands address = .error fault ∧
        expand? mnemonic operands address = none := by
  cases hform : Form.ofMnemonic? mnemonic.toLower with
  | none =>
    have hunknown : Usage.ofMnemonic.lookup mnemonic.toLower = none := by
      rw [Option.eq_none_iff_forall_ne_some]
      intro u hu
      have hknown := Form.mnemonics_known _ (mem_of_lookup hu)
      rw [hform] at hknown
      simp at hknown
    refine .inr ⟨_, by rw [ofTokens, hform], ?_⟩
    rw [expand?, hunknown]
    rfl
  | some form =>
    obtain ⟨base, husage, hlayout⟩ := Form.usage_of_mnemonic hform
    have htokens : ofTokens mnemonic operands address =
        form.read mnemonic.toLower operands address := by
      rw [ofTokens, hform]
    have hexpand : expand? mnemonic operands address =
        ((form.usage base).values? operands address).map (base, ·) := by
      rw [expand?, husage]
      simp only [Option.bind_eq_bind, Option.bind_some, Form.base_usage]
      cases (form.usage base).values? operands address <;> rfl
    rw [htokens, hexpand]
    have hdecoded := form.decodes mnemonic.toLower base address operands
    generalize form.read mnemonic.toLower operands address = r at hdecoded
    generalize (form.usage base).values? operands address = o at hdecoded
    cases hdecoded with
    | @accepted i values h =>
      rw [← Bytes.toNat_ofWord] at h
      exact .inl ⟨i, base, values, rfl, rfl,
        ⟨_, hlayout, Layout.width_ofBase _ (mem_of_lookup hlayout), h⟩⟩
    | refused fault => exact .inr ⟨fault, rfl, rfl⟩

variable {word word' : UInt32} {base base' : String} {values values' : List Nat}

/-- A word is laid out in one way only. -/
theorem Fits.base_eq (h : Fits word base values) (h' : Fits word base' values') : base = base' := by
  obtain ⟨layout, hlayout, -, hread⟩ := h
  obtain ⟨layout', hlayout', -, hread'⟩ := h'
  by_contra hne
  have hapart : layout.apart layout' = true :=
    Layout.apart_of_ne (mem_of_lookup hlayout) (mem_of_lookup hlayout') hne
  rw [Layout.not_apart_of_read hread hread'] at hapart
  exact Bool.false_ne_true hapart

theorem Fits.word_eq_iff (h : Fits word base values) (h' : Fits word' base' values') :
    word = word' ↔ (base, values) = (base', values') := by
  rw [Prod.mk.injEq]
  constructor
  · rintro rfl
    obtain rfl := h.base_eq h'
    obtain ⟨layout, hlayout, -, hread⟩ := h
    obtain ⟨layout', hlayout', -, hread'⟩ := h'
    obtain rfl : layout = layout' := Option.some.inj (hlayout.symm.trans hlayout')
    exact ⟨rfl, Option.some.inj (hread.symm.trans hread')⟩
  · rintro ⟨rfl, rfl⟩
    obtain ⟨layout, hlayout, hwidth, hread⟩ := h
    obtain ⟨layout', hlayout', -, hread'⟩ := h'
    obtain rfl : layout = layout' := Option.some.inj (hlayout.symm.trans hlayout')
    have hmod := Layout.mod_eq_of_read hread hread'
    rw [Bytes.toNat_ofWord, Bytes.toNat_ofWord, hwidth, Nat.mod_eq_of_lt word.toNat_lt,
      Nat.mod_eq_of_lt word'.toNat_lt] at hmod
    exact UInt32.toNat_inj.mp hmod

end Instruction

theorem fits_powerPC (mnemonic : String) (operands : List String) (address : Address) :
    (∃ word base values, (powerPC mnemonic operands address).result = .ok word ∧
        Instruction.expand? mnemonic operands address = some (base, values) ∧
        Instruction.Fits word base values) ∨
      ∃ fault, (powerPC mnemonic operands address).result = .error fault ∧
        Instruction.expand? mnemonic operands address = none := by
  rw [powerPC]
  rcases Instruction.fits_ofTokens mnemonic operands address with
    ⟨i, base, values, htokens, hexpand, hfits⟩ | ⟨fault, htokens, hexpand⟩
  · exact .inl ⟨i.word, base, values, by rw [htokens], hexpand, hfits⟩
  · exact .inr ⟨fault, by rw [htokens]; rfl, hexpand⟩

/-- The encoder accepts the lines that have fields. The word of such a line fits them, and two lines
at one address have the same word exactly if they have the same base instruction and fields. -/
theorem powerPC_decodes (mnemonic : String) (operands : List String) (address : Address) :
    ((∃ word, (powerPC mnemonic operands address).result = .ok word) ↔
        (Instruction.expand? mnemonic operands address).isSome) ∧
      (∀ word, (powerPC mnemonic operands address).result = .ok word → ∃ base values,
        Instruction.expand? mnemonic operands address = some (base, values) ∧
        Instruction.Fits word base values) ∧
      ∀ mnemonic' operands' word word', (powerPC mnemonic operands address).result = .ok word →
        (powerPC mnemonic' operands' address).result = .ok word' →
        (word = word' ↔
          Instruction.expand? mnemonic operands address =
            Instruction.expand? mnemonic' operands' address) := by
  have hfits : ∀ mnemonic operands word, (powerPC mnemonic operands address).result = .ok word →
      ∃ base values,
      Instruction.expand? mnemonic operands address = some (base, values) ∧
      Instruction.Fits word base values := by
    intro mnemonic operands word hword
    rcases fits_powerPC mnemonic operands address with
      ⟨word', base, values, hresult, hexpand, hfits⟩ | ⟨fault, hresult, -⟩
    · obtain rfl : word = word' := Except.ok.inj (hword.symm.trans hresult)
      exact ⟨base, values, hexpand, hfits⟩
    · rw [hword] at hresult
      nomatch hresult
  refine ⟨?_, hfits mnemonic operands, ?_⟩
  · rcases fits_powerPC mnemonic operands address with
      ⟨word, base, values, hresult, hexpand, -⟩ | ⟨fault, hresult, hexpand⟩
    · simp [hresult, hexpand]
    · simp [hresult, hexpand]
  · intro mnemonic' operands' word word' hword hword'
    obtain ⟨base, values, hexpand, hfit⟩ := hfits mnemonic operands word hword
    obtain ⟨base', values', hexpand', hfit'⟩ := hfits mnemonic' operands' word' hword'
    rw [hexpand, hexpand', Option.some.injEq]
    exact hfit.word_eq_iff hfit'

/-- A shift to the right and the rotation that it stands for, with registers and amounts beyond
their ranges. -/
theorem powerPC_decodes_shift :
    Instruction.expand? "SRWI" ["r35", "SP", "-1"] 0x80001000 = some ("rlwinm", [1, 3, 1, 31, 31]) ∧
      Instruction.Fits 0x54230FFE "rlwinm" [1, 3, 1, 31, 31] ∧
      Instruction.expand? "rlwinm" ["r3", "r1", "1", "0x1F", "63"] 0x80001000 =
        some ("rlwinm", [1, 3, 1, 31, 31]) := by
  have hshift : (powerPC "SRWI" ["r35", "SP", "-1"] 0x80001000).result = .ok 0x54230FFE := by
    decide +kernel
  have hrotation : (powerPC "rlwinm" ["r3", "r1", "1", "0x1F", "63"] 0x80001000).result =
      .ok 0x54230FFE := by
    decide +kernel
  have hexpand : Instruction.expand? "SRWI" ["r35", "SP", "-1"] 0x80001000 =
      some ("rlwinm", [1, 3, 1, 31, 31]) := by
    decide +kernel
  obtain ⟨-, hfits, hsame⟩ := powerPC_decodes "SRWI" ["r35", "SP", "-1"] 0x80001000
  obtain ⟨base, values, hfields, hfit⟩ := hfits _ hshift
  obtain ⟨rfl, rfl⟩ : "rlwinm" = base ∧ [1, 3, 1, 31, 31] = values := by
    simpa using hexpand.symm.trans hfields
  exact ⟨hexpand, hfit, ((hsame _ _ _ _ hshift hrotation).mp rfl).symm.trans hexpand⟩

end PatchCode
