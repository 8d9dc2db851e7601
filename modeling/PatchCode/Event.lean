import PatchCode.Diagnostic
import PatchCode.Fault
import PatchCode.Patch.Pass
import PatchCode.Plan
import PatchCode.Session.Statistics

/-! The log: what happens while a program is assembled, simplified and written. -/

namespace PatchCode

inductive Level where
  | warn | debug | trace
  deriving Repr, DecidableEq

namespace Level

def name : Level → String
  | warn => "WARN"
  | debug => "DEBUG"
  | trace => "TRACE"

/-- Every level includes those that are more urgent. -/
def includes : Level → Level → Bool
  | trace, _ => true
  | debug, trace => false
  | debug, _ => true
  | warn, warn => true
  | warn, _ => false

end Level

inductive Event where
  /-- A line is refused, or encloses one that is. -/
  | rejected (line : Nat) (fault : Fault) (text : String)
  | labelled (address : Address)
  | data (name : String) (size : Nat) (address : Address)
  | encoded (mnemonic : String) (operands : List String) (address : Address) (word : UInt32)
  /-- A patch directive takes effect at the address. -/
  | directive (name : String) (value : UInt32) (address : Address)
  | repeated (count : Nat) (address : Address)
  | unread (lines : Nat)
  | assembled (units : Nat) (address : Address)
  | passed (name : String) (before after : Nat)
  | planned (record : WriteRecord)
  /-- A guard has nothing to guard. -/
  | emptyBody (address : Address)
  /-- Two encodings of one write were compared by their line counts. -/
  | compared (address : Address) (runLength bulk : Nat)
  | warned (warning : Warning)
  | compiled (writer : String) (statistics : Statistics)
  deriving Repr, DecidableEq

namespace Event

def level : Event → Level
  | unread _ | warned _ => .warn
  | rejected .. | directive .. | repeated .. | assembled .. | passed .. | compiled .. => .debug
  | labelled _ | data .. | encoded .. | planned _ | emptyBody _ | compared .. => .trace

def renderRecord : WriteRecord → String
  | .byte address value count =>
    "Byte \x7b address: " ++ toString address ++ ", value: " ++ toString value ++ ", count: " ++
      toString count ++ " \x7d"
  | .half address value count =>
    "Half \x7b address: " ++ toString address ++ ", value: " ++ toString value ++ ", count: " ++
      toString count ++ " \x7d"
  | .word address value =>
    "Word \x7b address: " ++ toString address ++ ", value: " ++ toString value ++ " \x7d"

def renderOperands (operands : List String) : String :=
  "[" ++ ", ".intercalate (operands.map fun token => "\"" ++ token ++ "\"") ++ "]"

def message : Event → String
  | rejected line fault text =>
    "line " ++ toString line ++ ": " ++ fault.message ++ " in '" ++ text ++ "'"
  | labelled address => "label " ++ address.render
  | data name size address => "." ++ name ++ " " ++ toString size ++ " byte(s) @ " ++ address.render
  | encoded mnemonic operands address word =>
    mnemonic ++ " " ++ renderOperands operands ++ " @ " ++ address.render ++ " -> 0x" ++
      Text.hex 8 word.toNat
  | directive name value address =>
    "!" ++ name ++ " 0x" ++ Text.hex 1 value.toNat ++ " @ " ++ address.render
  | repeated count address => "!repeat " ++ toString count ++ " @ " ++ address.render
  | unread lines => "top-level !end reached, ignoring " ++ toString lines ++ " remaining line(s)"
  | assembled units address =>
    "assembled " ++ toString units ++ " top-level unit(s), final address " ++ address.render
  | passed name before after =>
    "pass " ++ name ++ ": " ++ toString before ++ " -> " ++ toString after ++ " top-level unit(s)"
  | planned record => "planned " ++ renderRecord record
  | emptyBody address => "conditional at " ++ address.render ++ " has an empty body"
  | compared address runLength bulk =>
    "write at " ++ address.render ++ ": run-length " ++ toString runLength ++ " line(s), bulk " ++
      toString bulk ++ " line(s)"
  | warned warning => warning.message
  | compiled writer statistics => writer ++ " session:\n" ++ statistics.render

end Event

end PatchCode
