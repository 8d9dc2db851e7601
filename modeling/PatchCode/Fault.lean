/-! Why a source line is refused. -/

namespace PatchCode

/-- The cause of a refusal, with the text at fault. -/
inductive Fault where
  | unsupported (text : String)
  | literal (text : String)
  | operand (text : String)
  deriving Repr, DecidableEq

def Fault.message : Fault → String
  | unsupported text => "Unsupported operation: " ++ text
  | literal text => "Malformed literal: " ++ text
  | operand text => "Malformed operand: " ++ text

end PatchCode
