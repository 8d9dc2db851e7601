import Mathlib.Tactic
import PatchCode.Proofs.Numeral
import PatchCode.Proofs.Placement

/-! Code may be moved by multiples of four. If it has no labels of its own and its instructions are
the same everywhere, then behind a label that is so much further on it comes to the same patches,
all of them so much further on. Addresses wrap around, and the next multiple of four moves along
with them. -/

namespace PatchCode

def Write.relocate (distance : Address) (w : Write) : Write :=
  { w with address := w.address + distance }

def Condition.relocate (distance : Address) (c : Condition) : Condition :=
  { c with address := c.address + distance }

def Adjustment.relocate (distance : Address) (a : Adjustment) : Adjustment :=
  { a with address := a.address + distance }

namespace Patch

mutual

def relocate (distance : Address) : Patch → Patch
  | write data => write (data.relocate distance)
  | block body => block (relocateAll distance body)
  | group body => group (relocateAll distance body)
  | guard condition body => guard (condition.relocate distance) (relocateAll distance body)
  | adjust adjustment => adjust (adjustment.relocate distance)

def relocateAll (distance : Address) : List Patch → List Patch
  | [] => []
  | p :: ps => relocate distance p :: relocateAll distance ps

end

theorem relocateAll_append (distance : Address) (ps qs : List Patch) :
    relocateAll distance (ps ++ qs) = relocateAll distance ps ++ relocateAll distance qs := by
  induction ps with
  | nil => rfl
  | cons p ps ih => rw [List.cons_append, relocateAll, relocateAll, ih, List.cons_append]

end Patch

namespace Yield

variable {distance : Address}

def relocate (distance : Address) (y : Yield) : Yield :=
  y.map fun (patches, stop) => (Patch.relocateAll distance patches, stop + distance)

theorem relocate_andThen {next next' : Address → Yield}
    (h : ∀ a, next' (a + distance) = (next a).relocate distance) (y : Yield) :
    (y.relocate distance).andThen next' = (y.andThen next).relocate distance := by
  rcases y with fault | ⟨ps, a⟩
  · rfl
  change andThen (.ok (Patch.relocateAll distance ps, a + distance)) next' = _
  rw [ok_andThen, ok_andThen, h]
  rcases next a with fault | ⟨qs, b⟩
  · rfl
  · exact congrArg (fun rs => Except.ok (rs, b + distance))
      (Patch.relocateAll_append distance ps qs).symm

end Yield

/-- Instructions come to the same words at all addresses. -/
def Encoder.Absolute (encode : Encoder) : Prop :=
  ∀ mnemonic operands a b, (encode mnemonic operands a).result = (encode mnemonic operands b).result

namespace Assembly

variable {encode : Encoder} {distance : Address}

def Relocates (encode : Encoder) (distance : Address) (item : Outline) : Prop :=
  ∀ a, (emit encode item (a + distance)).result =
    Yield.relocate distance (emit encode item a).result

theorem relocate_emitPlain (hencode : encode.Absolute) (hdistance : distance.toNat % 4 = 0)
    {act : Plain} (hlabel : (Statement.plain act).isLabel = false) (a : Address) :
    (emitPlain encode (a + distance) act).result =
      Yield.relocate distance (emitPlain encode a act).result := by
  cases act with
  | label target => cases hlabel
  | data name bytes =>
    rw [emitPlain, emitPlain]
    split_ifs
    · rfl
    · exact congrArg (fun stop => Except.ok ([_], stop)) (a.advance_add distance bytes.length)
  | instruction mnemonic operands =>
    rw [emitPlain, emitPlain, Traced.result_bind, Traced.result_bind, a.alignUp_add hdistance,
      hencode mnemonic operands (a.alignUp 4 + distance) (a.alignUp 4)]
    cases (encode mnemonic operands (a.alignUp 4)).result with
    | error fault => rfl
    | ok word =>
      exact congrArg (fun stop => Except.ok ([_], stop)) ((a.alignUp 4).advance_add distance 4)
  | adjust name change type value =>
    exact congrArg (fun stop => Except.ok ([_], stop)) (a.advance_add distance type.size)

theorem relocate_emitAll {items : List Outline}
    (hitems : ∀ item ∈ items, Relocates encode distance item) (a : Address) :
    (emitAll encode items (a + distance)).result =
      Yield.relocate distance (emitAll encode items a).result := by
  induction items generalizing a with
  | nil => rfl
  | cons item items ih =>
    obtain ⟨hitem, hitems⟩ := List.forall_mem_cons.mp hitems
    rw [result_emitAll_cons, result_emitAll_cons, hitem a, Yield.relocate_andThen (ih hitems)]

theorem relocates_nest {body : List Outline} (hbody : ∀ item ∈ body, Relocates encode distance item)
    (line : Source.Line) (head : Head) : Relocates encode distance (.nest line head body) := by
  intro a
  cases head with
  | guard name comparison type value =>
    rw [result_emit_guard, result_emit_guard, relocate_emitAll hbody]
    rcases (emitAll encode body a).result with fault | ⟨ps, stop⟩ <;> rfl
  | times n =>
    rcases Nat.eq_zero_or_pos n with rfl | hn
    · rw [result_emit_never, result_emit_never, relocate_emitAll hbody]
      rcases (emitAll encode body a).result with fault | ⟨ps, stop⟩ <;> rfl
    · rw [result_emit_times _ _ _ _ hn, result_emit_times _ _ _ _ hn,
        relocate_emitAll (Outline.forall_mem_copies hbody n)]
      rcases (emitAll encode (List.replicate n body).flatten a).result with fault | ⟨ps, stop⟩ <;>
        rfl

end Assembly

/-- A label in front sets the address that everything else starts from. -/
theorem result_assemble_label (encode : Encoder) {label : String} {a : Address}
    (hlabel : Statement.read (Source.clean label) = .ok (.plain (.label a))) (lines : List String) :
    (assemble encode (label :: lines)).result =
      (Assembly.emitAll encode (Source.levels lines).items a).result.map Prod.fst := by
  have hitems : (Source.levels (label :: lines)).items =
      .leaf ⟨0, Source.clean label⟩ (.ok (.label a)) :: (Source.levels lines).items := by
    rw [Source.levels_cons, Source.role_of_read hlabel]
    cases Source.levels lines <;> rfl
  rw [result_assemble, hitems, Assembly.result_emitAll_cons, Assembly.result_emit_plain]
  exact congrArg (Except.map Prod.fst) (Yield.ok_nil_andThen a _)

theorem relocate_assemble {encode : Encoder} (hencode : encode.Absolute) {lines : List String}
    (hlabels : ∀ line ∈ lines, ∀ a, Statement.read (Source.clean line) ≠ .ok (.plain (.label a)))
    {distance : Address} (hdistance : distance.toNat % 4 = 0) {a : Address} {label label' : String}
    (hlabel : Statement.read (Source.clean label) = .ok (.plain (.label a)))
    (hlabel' : Statement.read (Source.clean label') = .ok (.plain (.label (a + distance)))) :
    (assemble encode (label' :: lines)).result =
      (assemble encode (label :: lines)).result.map (Patch.relocateAll distance) := by
  have hitems : (Source.levels lines).Forall (Assembly.Relocates encode distance) := by
    refine Source.forall_levels ?_ fun line _ head body _ hbody =>
      Assembly.relocates_nest hbody _ head
    intro line hline act hrole a
    cases act with
    | ok act =>
      have hread := Role.read_of_leaf hrole
      have hact : (Statement.plain act).isLabel = false := by
        cases act with
        | label target => exact absurd hread (hlabels line hline target)
        | data | instruction | adjust => rfl
      rw [Assembly.result_emit_plain, Assembly.result_emit_plain]
      exact Assembly.relocate_emitPlain hencode hdistance hact a
    | error fault =>
      rw [Assembly.result_emit_refused, Assembly.result_emit_refused]
      rfl
  rw [result_assemble_label encode hlabel', result_assemble_label encode hlabel,
    Assembly.relocate_emitAll hitems.items]
  rcases (Assembly.emitAll encode (Source.levels lines).items a).result with fault | ⟨ps, stop⟩ <;>
    rfl

theorem Address.ofInt_four_mul (k : Int) : (UInt32.ofInt (4 * k)).toNat % 4 = 0 := by
  rw [UInt32.ofInt, UInt32.toNat_ofNat']
  omega

/-- Lines without labels that are moved by a multiple of four come to the same patches so much
further on, or are refused for the same fault, whichever way the two labels in front of them are
written. -/
theorem assemble_relocated (encode : Encoder) (hencode : encode.Absolute) (lines : List String)
    (hlabels : ∀ line ∈ lines, ∀ a, Statement.read (Source.clean line) ≠ .ok (.plain (.label a)))
    (a : Address) (k : Int) :
    (assemble encode ((toString (a + .ofInt (4 * k)).toNat ++ ":") :: lines)).result =
        (assemble encode ((toString a.toNat ++ ":") :: lines)).result.map
          (Patch.relocateAll (.ofInt (4 * k))) ∧
      ∀ label label' : String, Statement.read (Source.clean label) = .ok (.plain (.label a)) →
        Statement.read (Source.clean label') = .ok (.plain (.label (a + .ofInt (4 * k)))) →
        (assemble encode (label' :: lines)).result =
          (assemble encode (label :: lines)).result.map (Patch.relocateAll (.ofInt (4 * k))) := by
  have hdistance := Address.ofInt_four_mul k
  refine ⟨?_, fun label label' hlabel hlabel' =>
    relocate_assemble hencode hlabels hdistance hlabel hlabel'⟩
  exact relocate_assemble hencode hlabels hdistance (Statement.read_label a)
    (Statement.read_label _)

def groundedPowerPC : Encoder := fun mnemonic operands _ => powerPC mnemonic operands 0

def movedLines : List String :=
  [".u8 1", "nop", "!repeat 2", "!u16 equal 5", ".u8 2", "!end", "!end", "!repeat 0", "blr", "!end",
    "!u8 add 1", "blr"]

/-- Just below the end of the address space the first instruction is aligned to zero, and moved by
four it is aligned to four. -/
theorem assemble_movedLines :
    groundedPowerPC.Absolute ∧
      (∀ line ∈ movedLines, ∀ a, Statement.read (Source.clean line) ≠ .ok (.plain (.label a))) ∧
      (assemble groundedPowerPC ("0xFFFFFFFD:" :: movedLines)).result.map Patch.allMarks =
        .ok [.write ⟨0xFFFFFFFD, [1]⟩, .write ⟨0, [0x60, 0, 0, 0]⟩, .guard ⟨.equal, .u16, 4, 5⟩,
          .write ⟨4, [2]⟩, .guard ⟨.equal, .u16, 5, 5⟩, .write ⟨5, [2]⟩, .adjust ⟨.add, .u8, 6, 1⟩,
          .write ⟨8, [0x4E, 0x80, 0, 0x20]⟩] ∧
      (assemble groundedPowerPC ("1 : ; moved" :: movedLines)).result =
        (assemble groundedPowerPC ("0xFFFFFFFD:" :: movedLines)).result.map
          (Patch.relocateAll (.ofInt (4 * 1))) := by
  have hencode : groundedPowerPC.Absolute := fun _ _ _ _ => rfl
  have hlabels : ∀ line ∈ movedLines, ∀ a, Statement.read (Source.clean line) ≠
      .ok (.plain (.label a)) := by
    have hall : movedLines.all (fun line => match Statement.read (Source.clean line) with
        | .ok s => !s.isLabel
        | .error _ => true) = true := by decide +kernel
    intro line hline a hread
    have hline := List.all_eq_true.mp hall line hline
    rw [hread] at hline
    cases hline
  have hlabel : Statement.read (Source.clean "0xFFFFFFFD:") = .ok (.plain (.label 0xFFFFFFFD)) := by
    decide +kernel
  have hlabel' : Statement.read (Source.clean "1 : ; moved") =
      .ok (.plain (.label (0xFFFFFFFD + .ofInt (4 * 1)))) := by
    decide +kernel
  obtain ⟨-, hmoved⟩ := assemble_relocated groundedPowerPC hencode movedLines hlabels 0xFFFFFFFD 1
  exact ⟨hencode, hlabels, by decide +kernel, hmoved _ _ hlabel hlabel'⟩

end PatchCode
