import PatchCode.Listing

/-! Byte dumps: the bytes of every write outside guards, eight to a line in two groups of four. -/

namespace PatchCode.Dump

def row (bytes : List UInt8) : String := " ".intercalate ((Bytes.chunks 4 bytes).map Text.hexBytes)

def rows (w : Write) : List String := (Bytes.chunks 8 w.bytes).map row

mutual

def write : Patch → Listing String
  | .write data => .ofLines (rows data)
  | .block body | .group body => writeAll body
  | .guard _ _ | .adjust _ => {}

def writeAll : List Patch → Listing String
  | [] => {}
  | p :: ps => write p ++ writeAll ps

end

end PatchCode.Dump
