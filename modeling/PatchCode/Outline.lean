import PatchCode.Statement

/-! The nesting of a program's lines. A closing line ends the innermost body that is open; a body
that is never closed runs to the end, and a closing line outside all bodies ends the program. -/

namespace PatchCode

inductive Outline where
  /-- A line that opens no body, or that is refused. -/
  | leaf (line : Source.Line) (act : Except Fault Plain)
  | nest (line : Source.Line) (head : Head) (body : List Outline)

namespace Outline

/-- What a list of lines holds up to the first closing line without an opening one, then up to the
next such line, and so on. -/
inductive Levels where
  /-- All the lines there are. -/
  | last (items : List Outline)
  /-- Lines up to a closing line, the lines behind it, and their levels. -/
  | closed (items : List Outline) (rest : List Source.Line) (next : Levels)

namespace Levels

def items : Levels → List Outline
  | last items | closed items _ _ => items

/-- The lines behind the first level. -/
def rest : Levels → List Source.Line
  | last _ => []
  | closed _ rest _ => rest

/-- Puts an item in front. -/
def push (item : Outline) : Levels → Levels
  | last items => last (item :: items)
  | closed items rest next => closed (item :: items) rest next

/-- Makes the first level the body of an opening line. -/
def nest (line : Source.Line) (head : Head) : Levels → Levels
  | last body => last [.nest line head body]
  | closed body _ next => next.push (.nest line head body)

end Levels

/-- The levels of a list of lines, of which those without text are skipped. -/
def ofLines : List Source.Line → Levels
  | [] => .last []
  | line :: rest =>
    if line.text.isEmpty then ofLines rest
    else
      match Statement.read line.text with
      | .ok (.plain act) => (ofLines rest).push (.leaf line (.ok act))
      | .ok (.opens head) => (ofLines rest).nest line head
      | .ok .closes => .closed [] rest (ofLines rest)
      | .error fault => (ofLines rest).push (.leaf line (.error fault))

end Outline

end PatchCode
