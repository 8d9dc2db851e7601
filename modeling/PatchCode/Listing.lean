import PatchCode.Event

/-! What a writer produces: code lines, what it had to warn about or leave out, and the log of its
work. -/

namespace PatchCode

structure Listing (α : Type) where
  lines : List α := []
  warnings : List Warning := []
  errors : List Refusal := []
  events : List Event := []
  deriving Repr, DecidableEq

namespace Listing

variable {α β : Type}

/-- One listing after another. -/
def append (l m : Listing α) : Listing α :=
  ⟨l.lines ++ m.lines, l.warnings ++ m.warnings, l.errors ++ m.errors, l.events ++ m.events⟩

instance : Append (Listing α) := ⟨append⟩

def ofLines (lines : List α) : Listing α := { lines }

/-- A warning and its log entry. -/
def ofWarning (warning : Warning) : Listing α :=
  { warnings := [warning], events := [.warned warning] }

def ofRefusal (refusal : Refusal) : Listing α := { errors := [refusal] }

def ofEvent (event : Event) : Listing α := { events := [event] }

/-- Everything but the lines. -/
def withoutLines (l : Listing α) : Listing α := { l with lines := [] }

def map (f : α → β) (l : Listing α) : Listing β := { l with lines := l.lines.map f }

/-- Nothing was left out. -/
def isComplete (l : Listing α) : Bool := l.errors.isEmpty

@[simp] theorem empty_append (l : Listing α) : ({} : Listing α) ++ l = l := rfl

@[simp] theorem append_empty (l : Listing α) : l ++ ({} : Listing α) = l := by
  change append l {} = l
  simp only [append, List.append_nil]

theorem append_assoc (l m n : Listing α) : l ++ m ++ n = l ++ (m ++ n) := by
  change append (append l m) n = append l (append m n)
  simp only [append, List.append_assoc]

@[simp] theorem lines_append (l m : Listing α) : (l ++ m).lines = l.lines ++ m.lines := rfl

@[simp] theorem warnings_append (l m : Listing α) : (l ++ m).warnings = l.warnings ++ m.warnings :=
  rfl

@[simp] theorem errors_append (l m : Listing α) : (l ++ m).errors = l.errors ++ m.errors := rfl

@[simp] theorem lines_withoutLines (l : Listing α) : l.withoutLines.lines = [] := rfl

@[simp] theorem warnings_withoutLines (l : Listing α) : l.withoutLines.warnings = l.warnings := rfl

@[simp] theorem errors_withoutLines (l : Listing α) : l.withoutLines.errors = l.errors := rfl

@[simp] theorem lines_ofLines (lines : List α) : (ofLines lines).lines = lines := rfl

@[simp] theorem warnings_ofLines (lines : List α) : (ofLines lines).warnings = [] := rfl

@[simp] theorem errors_ofLines (lines : List α) : (ofLines lines).errors = [] := rfl

end Listing

end PatchCode
