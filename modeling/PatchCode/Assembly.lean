import PatchCode.Instruction.Form
import PatchCode.Outline
import PatchCode.Traced

/-! Assembling: from the lines of a program to its patches. The address moves behind each item; a
guard is anchored at the address of its line and its body goes on from there. -/

namespace PatchCode

/-- Encodes the instruction at an address. -/
abbrev Encoder := String → List String → Address → Traced UInt32

/-- The PowerPC encoder. -/
def powerPC : Encoder := fun mnemonic operands address =>
  match Instruction.ofTokens mnemonic operands address with
  | .ok i => ⟨[.encoded mnemonic.toLower operands address i.word], .ok i.word⟩
  | .error fault => .refuse fault

namespace Assembly

def emitPlain (encode : Encoder) (address : Address) : Plain → Traced (List Patch × Address)
  | .label target => do
    Traced.note (.labelled target)
    return ([], target)
  | .data name bytes =>
    if bytes.isEmpty then return ([], address)
    else do
      Traced.note (.data name bytes.length address)
      return ([.write ⟨address, bytes⟩], address.advance bytes.length)
  | .instruction mnemonic operands => do
    let start := address.alignUp 4
    let word ← encode mnemonic operands start
    return ([.write ⟨start, Bytes.ofWord word⟩], start.advance 4)
  | .adjust name change type value => do
    Traced.note (.directive name value address)
    return ([.adjust ⟨change, type, address, value⟩], address.advance type.size)

/-- The refusal of a line, or of one that it encloses, is logged at the line. -/
def atLine {α : Type} (line : Source.Line) (t : Traced α) : Traced α :=
  t.onRefusal fun fault => .rejected line.number fault (.ofList line.text)

/-- An opened body, given how to emit its items once. A body that is to be done no times is checked,
and leaves the address where it was. -/
def emitBody (body : Address → Traced (List Patch × Address)) (address : Address) :
    Head → Traced (List Patch × Address)
  | .guard name comparison type value => do
    Traced.note (.directive name value address)
    (body address).map fun (patches, stop) =>
      ([.guard ⟨comparison, type, address, value⟩ patches], stop)
  | .times 0 => do
    Traced.note (.repeated 0 address)
    (body address).map fun _ => ([.group []], address)
  | .times count => do
    Traced.note (.repeated count address)
    (Traced.iterate body count address).map fun (patches, stop) => ([.group patches], stop)

mutual

/-- The patches of an item at an address, and the address behind them. -/
def emit (encode : Encoder) : Outline → Address → Traced (List Patch × Address)
  | .leaf line (.ok act), address => atLine line (emitPlain encode address act)
  | .leaf line (.error fault), _ => atLine line (.refuse fault)
  | .nest line head body, address =>
    atLine line (emitBody (fun start => emitAll encode body start) address head)

def emitAll (encode : Encoder) : List Outline → Address → Traced (List Patch × Address)
  | [], address => return ([], address)
  | item :: items, address => do
    let (patches, next) ← emit encode item address
    (emitAll encode items next).map fun (more, stop) => (patches ++ more, stop)

end

end Assembly

/-- The patches of a program. -/
def assemble (encode : Encoder) (lines : List String) : Traced (List Patch) := do
  let levels := Outline.ofLines (Source.number lines)
  let (program, stop) ← Assembly.emitAll encode levels.items 0
  if !levels.rest.isEmpty then Traced.note (.unread levels.rest.length)
  Traced.note (.assembled program.length stop)
  return program

end PatchCode
