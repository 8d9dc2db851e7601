import Mathlib.Tactic
import PatchCode.Proofs.Assembling

/-! Which fault a program is refused for: that of the first of its lines, in the order of the
source, that is refused on its own. Bodies are read whether or not they come to anything, and no
PowerPC instruction is refused for its address, so neither addresses nor the counts of repeats have
a part in it. -/

namespace PatchCode

def Fault.of {α : Type} : Except Fault α → Option Fault
  | .ok _ => none
  | .error fault => some fault

def Traced.fault? {α : Type} (t : Traced α) : Option Fault := Fault.of t.result

namespace Fault

variable {α β : Type}

@[simp] theorem of_ok (a : α) : of (.ok a) = none := rfl

@[simp] theorem of_error (fault : Fault) : of (.error fault : Except Fault α) = some fault := rfl

@[simp] theorem of_map (f : α → β) (e : Except Fault α) : of (e.map f) = of e := by
  cases e <;> rfl

theorem of_bind {e : Except Fault α} {f : α → Except Fault β} {o : Option Fault}
    (h : ∀ a, of (f a) = o) :
    of (e >>= f) = (of e).or o := by
  cases e with
  | error fault => rfl
  | ok a => exact h a

theorem of_andThen {y : Yield} {next : Address → Yield} {o : Option Fault}
    (h : ∀ a, of (next a) = o) :
    of (y.andThen next) = (of y).or o := by
  rcases y with fault | ⟨ps, a⟩
  · rfl
  · rw [Yield.ok_andThen, of_map]
    exact h a

end Fault

section Instructions

theorem Form.fault_displacement (target : String) (a b : Address) :
    Fault.of (displacement target a) = Fault.of (displacement target b) := by
  rw [displacement, displacement, Fault.of_map, Fault.of_map]

theorem Form.fault_branchOn (options : BitVec 5) (field : BitVec 3) (bit : BitVec 2)
    (target : String) (a b : Address) :
    Fault.of (branchOn options field bit target a) =
      Fault.of (branchOn options field bit target b) := by
  unfold branchOn
  rw [Fault.of_bind (o := none) fun _ => rfl, Fault.of_bind (o := none) fun _ => rfl,
    fault_displacement target a b]

/-- Only displacements depend on the address, and none is refused for its size. -/
theorem Form.fault_read (mnemonic : String) (form : Form) (operands : List String) (a b : Address) :
    Fault.of (form.read mnemonic operands a) = Fault.of (form.read mnemonic operands b) := by
  unfold read
  -- All forms but the three kinds of branches read the same at both addresses.
  split
  all_goals try rfl
  next link target =>
    rw [Fault.of_bind (o := none) fun _ => rfl, Fault.of_bind (o := none) fun _ => rfl,
      fault_displacement target a b]
  next options bit target => exact fault_branchOn options 0 bit target a b
  next options bit field target =>
    cases Operand.conditionField field with
    | error fault => rfl
    | ok number => exact fault_branchOn options number bit target a b

theorem Instruction.fault_ofTokens (mnemonic : String) (operands : List String) (a b : Address) :
    Fault.of (ofTokens mnemonic operands a) = Fault.of (ofTokens mnemonic operands b) := by
  unfold ofTokens
  cases Form.ofMnemonic? mnemonic.toLower with
  | none => rfl
  | some form => exact form.fault_read _ operands a b

theorem fault_powerPC (mnemonic : String) (operands : List String) (a : Address) :
    (powerPC mnemonic operands a).fault? = Fault.of (Instruction.ofTokens mnemonic operands 0) := by
  rw [Instruction.fault_ofTokens mnemonic operands 0 a, powerPC]
  cases Instruction.ofTokens mnemonic operands a <;> rfl

end Instructions

def Plain.fault? : Plain → Option Fault
  | instruction mnemonic operands => Fault.of (Instruction.ofTokens mnemonic operands 0)
  | label _ | data .. | adjust .. => none

def Role.fault? : Role → Option Fault
  | leaf (.ok act) => act.fault?
  | leaf (.error fault) => some fault
  | blank | opens _ | closes => none

namespace Outline

mutual

def fault? : Outline → Option Fault
  | leaf _ act => (Role.leaf act).fault?
  | nest _ _ body => firstFault? body

def firstFault? : List Outline → Option Fault
  | [] => none
  | item :: items => (fault? item).or (firstFault? items)

end

end Outline

namespace Assembly

theorem fault_emitPlain (act : Plain) (a : Address) :
    Fault.of (emitPlain powerPC a act).result = act.fault? := by
  cases act with
  | label target => rfl
  | data name bytes =>
    rw [emitPlain]
    split_ifs <;> rfl
  | adjust name change type value => rfl
  | instruction mnemonic operands =>
    rw [emitPlain, Traced.result_bind]
    exact (Fault.of_bind (o := none) fun _ => rfl).trans
      ((Option.or_none).trans (fault_powerPC mnemonic operands (a.alignUp 4)))

/-- Repeating a body brings no fault that doing it once does not bring. -/
theorem fault_replicate {body : List Outline} {o : Option Fault}
    (h : ∀ a, Fault.of (emitAll powerPC body a).result = o) {n : Nat} (hn : 0 < n) (a : Address) :
    Fault.of (emitAll powerPC (List.replicate n body).flatten a).result = o := by
  induction n generalizing a with
  | zero => exact absurd hn (Nat.lt_irrefl 0)
  | succ n ih =>
    rw [List.replicate_succ, List.flatten_cons, result_emitAll_append]
    rcases Nat.eq_zero_or_pos n with rfl | hpos
    · rw [Fault.of_andThen (o := none) fun _ => rfl, h, Option.or_none]
    · rw [Fault.of_andThen (ih hpos), h, Option.or_self]

mutual

theorem fault_emit :
    ∀ (item : Outline) (a : Address), Fault.of (emit powerPC item a).result = item.fault?
  | .leaf line (.ok act), a => by
    rw [result_emit_plain, fault_emitPlain, Outline.fault?, Role.fault?]
  | .leaf line (.error fault), a => by
    rw [result_emit_refused, Fault.of_error, Outline.fault?, Role.fault?]
  | .nest line (.guard ..) body, a => by
    rw [result_emit_guard, Fault.of_map, fault_emitAll body, Outline.fault?]
  | .nest line (.times 0) body, a => by
    rw [result_emit_never, Fault.of_map, fault_emitAll body, Outline.fault?]
  | .nest line (.times (n + 1)) body, a => by
    rw [result_emit_times _ _ _ _ n.succ_pos, Fault.of_map,
      fault_replicate (fault_emitAll body) n.succ_pos, Outline.fault?]

/-- What is refused, and why, is the same at every address. -/
theorem fault_emitAll : ∀ (items : List Outline) (a : Address),
    Fault.of (emitAll powerPC items a).result = Outline.firstFault? items
  | [], _ => rfl
  | item :: items, a => by
    rw [result_emitAll_cons, Fault.of_andThen (fault_emitAll items), fault_emit item,
      Outline.firstFault?]

end

end Assembly

namespace Outline.Levels

/-- The first fault within so many levels behind the first. -/
def faultWithin : Nat → Levels → Option Fault
  | _, last items | 0, closed items _ _ => firstFault? items
  | depth + 1, closed items _ next => (firstFault? items).or (faultWithin depth next)

theorem faultWithin_zero (levels : Levels) : levels.faultWithin 0 = firstFault? levels.items := by
  cases levels <;> rfl

theorem faultWithin_push (item : Outline) (levels : Levels) (depth : Nat) :
    (levels.push item).faultWithin depth = item.fault?.or (levels.faultWithin depth) := by
  cases levels with
  | last items => cases depth <;> rfl
  | closed items rest next =>
    cases depth with
    | zero => rfl
    | succ depth => exact Option.or_assoc

/-- An opening line takes a level out of those that are left. -/
theorem faultWithin_nest (line : Source.Line) (head : Head) (levels : Levels) (depth : Nat) :
    (levels.nest line head).faultWithin depth = levels.faultWithin (depth + 1) := by
  cases levels with
  | last body => cases depth <;> exact Option.or_none
  | closed body rest next => exact faultWithin_push _ next depth

end Outline.Levels

namespace Source

/-- The lines that are read, those without text and closing lines left out: all up to a closing line
at depth zero. -/
def scanned : Nat → List String → List String
  | _, [] => []
  | depth, line :: rest =>
    match role line with
    | .blank => scanned depth rest
    | .leaf _ => line :: scanned depth rest
    | .opens _ => line :: scanned (depth + 1) rest
    | .closes =>
      match depth with
      | 0 => []
      | depth + 1 => scanned depth rest

def faultAlone (line : String) : Option Fault := (assemble powerPC [line]).fault?

def scanFault? (depth : Nat) (lines : List String) : Option Fault :=
  (scanned depth lines).findSome? faultAlone

end Source

theorem fault_assemble_eq (lines : List String) :
    (assemble powerPC lines).fault? = Outline.firstFault? (Source.levels lines).items := by
  rw [Traced.fault?, result_assemble, Fault.of_map, Assembly.fault_emitAll]

theorem Source.faultAlone_eq (line : String) : faultAlone line = (role line).fault? := by
  rw [faultAlone, fault_assemble_eq, levels_cons]
  cases role line with
  | leaf act => exact Option.or_none
  | blank | opens head | closes => rfl

theorem Source.scanFault?_cons (depth : Nat) (line : String) (rest : List String) :
    scanFault? depth (line :: rest) =
      match role line, depth with
      | .blank, depth => scanFault? depth rest
      | .leaf act, depth => (Role.leaf act).fault?.or (scanFault? depth rest)
      | .opens _, depth => scanFault? (depth + 1) rest
      | .closes, 0 => none
      | .closes, depth + 1 => scanFault? depth rest := by
  have halone := faultAlone_eq line
  cases hrole : role line with
  | blank => simp only [scanFault?, scanned, hrole]
  | leaf act =>
    rw [hrole] at halone
    simp only [scanFault?, scanned, hrole, List.findSome?_cons, halone]
    cases Role.fault? (.leaf act) <;> rfl
  | opens head =>
    rw [hrole] at halone
    simp only [scanFault?, scanned, hrole, List.findSome?_cons, halone, Role.fault?]
  | closes => cases depth <;> simp only [scanFault?, scanned, hrole, List.findSome?_nil]

/-- The nested reading of a program and the flat one meet the same first fault. -/
theorem faultWithin_levels (lines : List String) (depth : Nat) :
    (Source.levels lines).faultWithin depth = Source.scanFault? depth lines := by
  induction lines generalizing depth with
  | nil => cases depth <;> rfl
  | cons line rest ih =>
    rw [Source.levels_cons, Source.scanFault?_cons]
    cases Source.role line with
    | blank => exact ih depth
    | leaf act => simp only [Outline.Levels.faultWithin_push, ih]; rfl
    | opens head => simp only [Outline.Levels.faultWithin_nest, ih]
    | closes =>
      cases depth with
      | zero => rfl
      | succ depth => exact ih depth

/-- One line in place of another: the same, a label with another address, or a repeat with another
count. -/
inductive Relaid : String → String → Prop
  | same (line : String) : Relaid line line
  | label {line line' : String} {a a' : Address} :
      Statement.read (Source.clean line) = .ok (.plain (.label a)) →
      Statement.read (Source.clean line') = .ok (.plain (.label a')) → Relaid line line'
  | times {line line' : String} {n n' : Nat} :
      Statement.read (Source.clean line) = .ok (.opens (.times n)) →
      Statement.read (Source.clean line') = .ok (.opens (.times n')) → Relaid line line'

theorem Source.scanFault?_relaid {lines lines' : List String} (h : List.Forall₂ Relaid lines lines')
    (depth : Nat) :
    scanFault? depth lines = scanFault? depth lines' := by
  induction h generalizing depth with
  | nil => rfl
  | cons hline _ ih =>
    rw [scanFault?_cons, scanFault?_cons]
    cases hline with
    | same => simp only [ih]
    | label h h' =>
      rw [role_of_read h, role_of_read h']
      exact ih depth
    | times h h' =>
      rw [role_of_read h, role_of_read h']
      exact ih (depth + 1)

/-- A program is refused exactly if one of the lines that are read is refused on its own, and then
for the first of them. Where the program starts, what its labels say and how often its repeats are
done make no difference. -/
theorem fault_assemble (lines : List String) :
    (assemble powerPC lines).fault? = (Source.scanned 0 lines).findSome? Source.faultAlone ∧
      (∀ start : Address,
        (Assembly.emitAll powerPC (Outline.ofLines (Source.number lines)).items start).fault? =
          (Source.scanned 0 lines).findSome? Source.faultAlone) ∧
      ∀ lines' : List String, List.Forall₂ Relaid lines lines' →
        (assemble powerPC lines').fault? = (assemble powerPC lines).fault? := by
  have hscan : ∀ lines, Outline.firstFault? (Source.levels lines).items =
      Source.scanFault? 0 lines := by
    intro lines
    rw [← faultWithin_levels, Outline.Levels.faultWithin_zero]
  refine ⟨?_, ?_, ?_⟩
  · rw [fault_assemble_eq, hscan, Source.scanFault?]
  · intro start
    rw [Traced.fault?, Assembly.result_emitAll_number, Assembly.fault_emitAll, hscan,
      Source.scanFault?]
  · intro lines' hlines
    rw [fault_assemble_eq, fault_assemble_eq, hscan, hscan, Source.scanFault?_relaid hlines]

/-- A body with a bad line in it and another behind that line. The last lines are not read. -/
def brokenBody (label opening : String) : List String :=
  [label, ".str \"a;b\"", opening, "!u8 equal 1 ; guard", "frobnicate r1", "!end", "zz:", "!end",
    "!end", "?"]

/-- The body is refused alike if it is done three times and if it is never done. -/
theorem fault_brokenBody :
    List.Forall₂ Relaid (brokenBody "0x10:" "!repeat 0") (brokenBody "0x7FFFFFFD:" "!repeat 3") ∧
      (assemble powerPC (brokenBody "0x10:" "!repeat 0")).fault? =
        some (.unsupported "frobnicate") ∧
      (assemble powerPC (brokenBody "0x7FFFFFFD:" "!repeat 3")).fault? =
        some (.unsupported "frobnicate") := by
  have hlabel : Statement.read (Source.clean "0x10:") = .ok (.plain (.label 0x10)) := by
    decide +kernel
  have hlabel' : Statement.read (Source.clean "0x7FFFFFFD:") =
      .ok (.plain (.label 0x7FFFFFFD)) := by decide +kernel
  have hnever : Statement.read (Source.clean "!repeat 0") = .ok (.opens (.times 0)) := by
    decide +kernel
  have hthrice : Statement.read (Source.clean "!repeat 3") = .ok (.opens (.times 3)) := by
    decide +kernel
  have hlines : List.Forall₂ Relaid (brokenBody "0x10:" "!repeat 0")
      (brokenBody "0x7FFFFFFD:" "!repeat 3") :=
    .cons (.label hlabel hlabel') (.cons (.same _) (.cons (.times hnever hthrice)
      (List.forall₂_same.mpr fun line _ => .same line)))
  obtain ⟨hscan, -, hrelaid⟩ := fault_assemble (brokenBody "0x10:" "!repeat 0")
  have hfault : (assemble powerPC (brokenBody "0x10:" "!repeat 0")).fault? =
      some (.unsupported "frobnicate") := by
    rw [hscan]
    decide +kernel
  exact ⟨hlines, hfault, (hrelaid _ hlines).trans hfault⟩

end PatchCode
