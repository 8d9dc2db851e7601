import PatchCode.Bytes
import PatchCode.Literal.Decimal
import PatchCode.Literal.Quoted
import PatchCode.Source.Line

/-! Typed data: the bytes that a data directive lays down. Integers are cut to the width of their
kind, decimals are encoded as singles or doubles, and a quoted text gives its UTF-8 bytes. -/

namespace PatchCode

/-- Kinds of data that are written as literals, one or more to a directive. -/
inductive Element where
  | integer (width : Nat)
  | single
  | double
  deriving Repr, DecidableEq

namespace Element

/-- Bytes per literal. -/
def size : Element → Nat
  | integer width => width
  | single => 4
  | double => 8

def encode : Element → String → Except Fault (List UInt8)
  | integer width, token => (Literal.integer token).map (Bytes.ofInt width)
  | single, token => (Literal.single token).map fun bits => Bytes.ofNat 4 bits.toNat
  | double, token => (Literal.double token).map fun bits => Bytes.ofNat 8 bits.toNat

end Element

inductive DataKind where
  | literals (element : Element)
  | text
  deriving Repr, DecidableEq

namespace DataKind

/-- The sign letter of an integer kind makes no difference to its bytes. -/
def ofName? : String → Option DataKind
  | "u8" | "s8" => some (literals (.integer 1))
  | "u16" | "s16" => some (literals (.integer 2))
  | "u32" | "s32" => some (literals (.integer 4))
  | "u64" | "s64" => some (literals (.integer 8))
  | "f32" => some (literals .single)
  | "f64" => some (literals .double)
  | "str" => some text
  | _ => none

/-- Bytes per literal; a text has no fixed size. -/
def elementSize? : DataKind → Option Nat
  | literals element => some element.size
  | text => none

/-- The bytes of the argument text behind a directive. -/
def encode : DataKind → String → Except Fault (List UInt8)
  | text, args => (Literal.quoted args).map Bytes.ofText
  | literals element, args =>
    match Source.tokens args.toList with
    | [] => .error (.literal (.ofList (Text.trim args.toList)))
    | tokens => (tokens.mapM element.encode).map List.flatten

end DataKind

end PatchCode
