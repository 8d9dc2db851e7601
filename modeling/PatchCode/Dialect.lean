import PatchCode.ActionReplay
import PatchCode.Dump
import PatchCode.Gecko

/-! The dialects that a program can be written in, and writers, which are dialects with their
settings. -/

namespace PatchCode

inductive Dialect where
  | actionReplay | gecko | bytes
  deriving Repr, DecidableEq

namespace Dialect

def all : List Dialect := [actionReplay, gecko, bytes]

def name : Dialect → String
  | actionReplay => "action-replay"
  | gecko => "gecko"
  | bytes => "bytes"

def ofName? (s : String) : Option Dialect := all.find? (·.name == s)

end Dialect

inductive Writer where
  | actionReplay
  | gecko (style : Gecko.Style)
  | bytes
  deriving Repr, DecidableEq

namespace Writer

def dialect : Writer → Dialect
  | actionReplay => .actionReplay
  | gecko _ => .gecko
  | bytes => .bytes

def name (w : Writer) : String := w.dialect.name

/-- The writer of a dialect; only Gecko codes use the register. -/
def ofDialect (register : Fin 16) : Dialect → Writer
  | .actionReplay => actionReplay
  | .gecko => gecko { register }
  | .bytes => bytes

def write : Writer → List Patch → Listing String
  | actionReplay, program => (ActionReplay.writeAll program).map Record.render
  | gecko style, program => (Gecko.writeAll style program).map Record.render
  | bytes, program => Dump.writeAll program

end Writer

/-- Anything that writes programs down, with its name. -/
structure CodeWriter where
  name : String
  write : List Patch → Listing String

instance : Coe Writer CodeWriter := ⟨fun writer => ⟨writer.name, writer.write⟩⟩

end PatchCode
