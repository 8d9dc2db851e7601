import PatchCode.Text.Blank

/-! Source lines. A comment runs from the first semicolon outside quotes to the end of the line;
tokens are separated by blanks, commas and parentheses, so that `8(r4)` comes apart as `8` and
`r4`. -/

namespace PatchCode.Source

/-- Where a scan of a line stands with respect to quoted text. -/
inductive Quoting where
  | outside
  | inside
  /-- Inside, just behind a backslash. -/
  | escaped
  deriving Repr, DecidableEq

def Quoting.next : Quoting → Char → Quoting
  | outside, '"' => inside
  | outside, _ => outside
  | inside, '"' => outside
  | inside, '\\' => escaped
  | inside, _ => inside
  | escaped, _ => inside

theorem Quoting.next_outside {c : Char} (h : c ≠ '"') : outside.next c = outside := by
  unfold next
  split <;> simp_all

/-- What stands before the comment. -/
def beforeComment : Quoting → List Char → List Char
  | _, [] => []
  | q, c :: cs => if q = .outside ∧ c = ';' then [] else c :: beforeComment (q.next c) cs

def stripComment (cs : List Char) : List Char := beforeComment .outside cs

def isSeparator (c : Char) : Bool := Text.isBlank c || c == ',' || c == '(' || c == ')'

def tokens (cs : List Char) : List String :=
  ((cs.splitOnP isSeparator).filter (!·.isEmpty)).map String.ofList

/-- A line without its comment and without blanks at its ends. -/
def clean (line : String) : List Char := Text.trim (stripComment line.toList)

/-- A line of a program, counted from one, already cleaned. -/
structure Line where
  number : Nat
  text : List Char
  deriving Repr, DecidableEq

/-- All lines of a program, those without any text included. -/
def number (lines : List String) : List Line :=
  (lines.zipIdx 1).map fun (text, n) => ⟨n, clean text⟩

/-- Splits a text at line feeds. A carriage return just before a line feed goes with it, and a text
that ends in a line feed has no further line. -/
def splitLines (text : String) : List String :=
  let pieces := text.toList.splitOnP (· == '\n')
  let ended := pieces.dropLast.map fun cs => if cs.getLast? = some '\r' then cs.dropLast else cs
  let last := pieces.getLast?.getD []
  (if last.isEmpty then ended else ended ++ [last]).map String.ofList

end PatchCode.Source
