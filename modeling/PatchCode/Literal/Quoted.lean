import PatchCode.Fault
import PatchCode.Text.Blank

/-! Quoted text: characters between double quotes, with six escapes. -/

namespace PatchCode.Literal

/-- The character that a backslash and this letter stand for. -/
def unescape? : Char → Option Char
  | 'n' => some '\n'
  | 't' => some '\t'
  | 'r' => some '\r'
  | '0' => some '\x00'
  | '\\' => some '\\'
  | '"' => some '"'
  | _ => none

/-- Reads up to the closing quote, which has to be the last character. -/
def quotedBody? : List Char → Option (List Char)
  | [] => none
  | '"' :: cs => if cs.isEmpty then some [] else none
  | '\\' :: c :: cs =>
    match unescape? c, quotedBody? cs with
    | some c, some text => some (c :: text)
    | _, _ => none
  | c :: cs => (quotedBody? cs).map (c :: ·)

def quoted? : List Char → Option (List Char)
  | '"' :: cs => quotedBody? cs
  | _ => none

/-- Reads a quoted text with blanks around it. -/
def quoted (text : String) : Except Fault String :=
  let trimmed := Text.trim text.toList
  match quoted? trimmed with
  | some cs => .ok (.ofList cs)
  | none => .error (.literal (.ofList trimmed))

end PatchCode.Literal
