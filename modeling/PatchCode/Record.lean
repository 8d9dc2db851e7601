import PatchCode.Address
import PatchCode.Text.Blank
import PatchCode.Text.Radix

/-! Code records: two words on a line, in upper-case hexadecimal with one blank between them. -/

namespace PatchCode

structure Record where
  left : UInt32
  right : UInt32
  deriving Repr, DecidableEq

namespace Record

/-- A record type above the address that it applies to. -/
def codeWord (code : UInt32) (address : Address) : UInt32 := (code <<< 24) ||| address.inRecord

def render (r : Record) : String := Text.hex 8 r.left.toNat ++ " " ++ Text.hex 8 r.right.toNat

/-- Eight characters that read as a hexadecimal number. -/
def field? (cs : List Char) : Option UInt32 :=
  if cs.length = 8 then (Text.ofUnsigned? 16 cs).map UInt32.ofNat else none

/-- Reads a line with blanks around it. -/
def ofLine? (line : String) : Option Record :=
  let cs := Text.trim line.toList
  match cs.dropWhile (· ≠ ' ') with
  | [] => none
  | _ :: right =>
    match field? (cs.takeWhile (· ≠ ' ')), field? right with
    | some left, some right => some ⟨left, right⟩
    | _, _ => none

end Record

end PatchCode
