import PatchCode.Address
import PatchCode.Data
import PatchCode.ValueType

/-! What a cleaned source line says, apart from where it stands. A line begins a directive with `!`
or data with `.`, is an address label if it ends in `:`, and is an instruction otherwise. -/

namespace PatchCode

/-- Lines that have their effect alone. -/
inductive Plain where
  | label (address : Address)
  | data (name : String) (bytes : List UInt8)
  | instruction (mnemonic : String) (operands : List String)
  | adjust (name : String) (change : Change) (type : ValueType) (value : UInt32)
  deriving Repr, DecidableEq

/-- Lines that have their effect with the lines that follow, up to a closing line. -/
inductive Head where
  | guard (name : String) (comparison : Comparison) (type : ValueType) (value : UInt32)
  | times (count : Nat)
  deriving Repr, DecidableEq

inductive Statement where
  | plain (act : Plain)
  | opens (head : Head)
  | closes
  deriving Repr, DecidableEq

/-- What a patch directive does. -/
inductive Verb where
  | compare (comparison : Comparison)
  | change (change : Change)
  deriving Repr, DecidableEq

namespace Verb

def ofName? (name : String) : Option Verb :=
  match Comparison.ofName? name, Change.ofName? name with
  | some comparison, _ => some (compare comparison)
  | none, some c => some (change c)
  | none, none => none

/-- Masks take one or two bytes, and bits are set and cleared in unsigned values only. -/
def allows : Verb → ValueType → Bool
  | compare .mask, .u8 | compare .mask, .u16 => true
  | compare .mask, _ => false
  | compare _, _ => true
  | change .add, _ => true
  | change _, .u8 | change _, .u16 | change _, .u32 => true
  | change _, _ => false

end Verb

namespace Statement

/-- A type name and a verb run together. -/
def fused? (name : String) : Option (ValueType × Verb) :=
  ValueType.all.findSome? fun type =>
    match type.name.toList.isPrefixOf? name.toList with
    | some verb => (Verb.ofName? (.ofList verb)).map (type, ·)
    | none => none

/-- The bits of a directive's value: a single, or an integer cut to the type. -/
def value (type : ValueType) (token : String) : Except Fault UInt32 :=
  if type.isFloat then Literal.single token
  else (Literal.integer token).map fun n => UInt32.ofInt n &&& type.mask

/-- A patch directive that goes by `name`, with its arguments. -/
def patch (name : String) (type : ValueType) (verb : Verb) (args : List String) :
    Except Fault Statement :=
  if verb.allows type then
    match args with
    | [token] =>
      (value type token).map fun v =>
        match verb with
        | .compare comparison => opens (.guard name comparison type v)
        | .change change => plain (.adjust name change type v)
    | _ => .error (.operand (name ++ " expects one value"))
  else .error (.unsupported ("!" ++ name))

/-- A directive that is named by a type and a verb, or by both in one. -/
def readPatch (first : String) (args : List String) : Except Fault Statement :=
  match ValueType.ofName? first, args with
  | some type, second :: args =>
    let name := first ++ " " ++ second
    match Verb.ofName? second with
    | some verb => patch name type verb args
    | none => .error (.unsupported ("!" ++ name))
  | _, _ =>
    match fused? first with
    | some (type, verb) => patch first type verb args
    | none => .error (.unsupported ("!" ++ first))

def readRepeat : List String → Except Fault Statement
  | [token] => do
    let count ← Literal.integer token
    if count < 0 then .error (.literal token) else .ok (opens (.times count.toNat))
  | _ => .error (.operand "repeat expects one count")

def readDirective : List String → Except Fault Statement
  | [] => .error (.unsupported "!")
  | "end" :: _ => .ok closes
  | "repeat" :: args => readRepeat args
  | first :: args => readPatch first args

def readData (text : List Char) : Except Fault Statement :=
  let name := String.ofList (text.takeWhile (!Text.isBlank ·))
  match DataKind.ofName? name with
  | some kind =>
    (kind.encode (.ofList (text.dropWhile (!Text.isBlank ·)))).map fun bytes =>
      plain (.data name bytes)
  | none => .error (.unsupported ("." ++ name))

/-- The text of a label: what stands before a final colon, if it is one word. -/
def labelText? (line : List Char) : Option (List Char) :=
  if line.getLast? = some ':' then
    let text := Text.trim line.dropLast
    if text.isEmpty || text.any Text.isBlank then none else some text
  else none

def readLabel (text : List Char) : Except Fault Statement :=
  (Literal.integer (.ofList text)).map fun n => plain (.label (UInt32.ofInt n))

def readInstruction (line : List Char) : Except Fault Statement :=
  match Source.tokens line with
  | [] => .error (.unsupported (.ofList line))
  | mnemonic :: operands => .ok (plain (.instruction mnemonic operands))

def read (line : List Char) : Except Fault Statement :=
  match line with
  | '!' :: rest => readDirective (Source.tokens rest)
  | '.' :: rest => readData rest
  | _ =>
    match labelText? line with
    | some text => readLabel text
    | none => readInstruction line

end Statement

end PatchCode
