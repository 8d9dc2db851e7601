/-! Running totals of a session. -/

namespace PatchCode

structure Statistics where
  programsCompiled : Nat := 0
  linesRead : Nat := 0
  unitsAssembled : Nat := 0
  unitsOptimized : Nat := 0
  outputLines : Nat := 0
  warnings : Nat := 0
  errors : Nat := 0
  deriving Repr, DecidableEq

namespace Statistics

instance : Add Statistics where
  add s t :=
    { programsCompiled := s.programsCompiled + t.programsCompiled
      linesRead := s.linesRead + t.linesRead
      unitsAssembled := s.unitsAssembled + t.unitsAssembled
      unitsOptimized := s.unitsOptimized + t.unitsOptimized
      outputLines := s.outputLines + t.outputLines
      warnings := s.warnings + t.warnings
      errors := s.errors + t.errors }

def render (s : Statistics) : String :=
  "\n".intercalate
    ["Assembler Session Statistics:",
      "  Programs compiled: " ++ toString s.programsCompiled,
      "  Source lines: " ++ toString s.linesRead,
      "  Units: " ++ toString s.unitsAssembled ++ " assembled, " ++ toString s.unitsOptimized ++
        " after optimization",
      "  Output lines: " ++ toString s.outputLines,
      "  Warnings: " ++ toString s.warnings,
      "  Errors: " ++ toString s.errors]

end Statistics

end PatchCode
