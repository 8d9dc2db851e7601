/-! A reading position in a list of lines. Positions are values, so a copy reads on
independently. -/

namespace PatchCode.Source

structure Cursor where
  /-- Lines read so far. -/
  consumed : Nat
  rest : List String
  deriving Repr, DecidableEq

namespace Cursor

def ofLines (lines : List String) : Cursor := ⟨0, lines⟩

def remaining (c : Cursor) : Nat := c.rest.length

def exhausted (c : Cursor) : Bool := c.rest.isEmpty

/-- The next line with its number, counted from one, and the position behind it. -/
def next? (c : Cursor) : Option ((Nat × String) × Cursor) :=
  match c.rest with
  | [] => none
  | line :: rest => some ((c.consumed + 1, line), ⟨c.consumed + 1, rest⟩)

end Cursor

end PatchCode.Source
