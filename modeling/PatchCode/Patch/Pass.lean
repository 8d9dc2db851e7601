import PatchCode.Patch.Flatten
import PatchCode.Patch.Merge
import PatchCode.Patch.Realign

/-! Simplification passes over a program. -/

namespace PatchCode

inductive Pass where
  /-- Splice repeat groups. -/
  | flatten
  /-- Join contiguous writes, then split misaligned ones. -/
  | writeData
  deriving Repr, DecidableEq

namespace Pass

def name : Pass → String
  | flatten => "flatten"
  | writeData => "write-data"

def run : Pass → List Patch → List Patch
  | flatten, program => Patch.flattenAll program
  | writeData, program => Patch.realignAll (Patch.mergeAll program)

/-- The usual passes, in order. -/
def standard : List Pass := [flatten, writeData]

end Pass

/-- Any named rewriting of programs. -/
structure Rewriting where
  name : String
  run : List Patch → List Patch

instance : Coe (List Pass) (List Rewriting) := ⟨List.map fun pass => ⟨pass.name, pass.run⟩⟩

/-- Runs the usual passes. -/
def Patch.optimize (program : List Patch) : List Patch :=
  Pass.standard.foldl (fun program pass => pass.run program) program

end PatchCode
