import PatchCode.Patch.Basic
import PatchCode.Text.Radix

/-! The text form of a program: one line a patch, indented by two blanks a level. -/

namespace PatchCode

/-- An address as `0x` and eight digits. -/
def Address.render (a : Address) : String := "0x" ++ Text.hex 8 a.toNat

def Write.render (w : Write) : String :=
  "write " ++ w.address.render ++ " [" ++ " ".intercalate (w.bytes.map Text.hexByte) ++ "]"

/-- A value with two digits a byte of its type, or more if it has more. -/
def ValueType.renderValue (t : ValueType) (value : UInt32) : String :=
  "0x" ++ Text.hex (2 * t.size) value.toNat

def Condition.render (c : Condition) : String :=
  "if " ++ c.type.name ++ " " ++ c.comparison.name ++ " " ++ c.type.renderValue c.value ++ " @ " ++
    c.address.render

def Adjustment.render (a : Adjustment) : String :=
  a.change.name ++ " " ++ a.type.name ++ " " ++ a.type.renderValue a.value ++ " @ " ++
    a.address.render

namespace Patch

def indent (depth : Nat) : String := .ofList (List.replicate (2 * depth) ' ')

mutual

/-- The lines of a patch that stands `depth` levels deep. -/
def lines (depth : Nat) : Patch → List String
  | write data => [indent depth ++ data.render]
  | block body => (indent depth ++ "block") :: allLines (depth + 1) body
  | group body => (indent depth ++ "multi") :: allLines (depth + 1) body
  | guard condition body => (indent depth ++ condition.render) :: allLines (depth + 1) body
  | adjust adjustment => [indent depth ++ adjustment.render]

def allLines (depth : Nat) : List Patch → List String
  | [] => []
  | p :: ps => lines depth p ++ allLines depth ps

end

/-- The text of a whole program, each line ended by a line feed. -/
def render (program : List Patch) : String :=
  String.join (("block" :: allLines 1 program).map (· ++ "\n"))

end Patch

end PatchCode
