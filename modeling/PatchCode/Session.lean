import PatchCode.Assembly
import PatchCode.Dialect

/-! Sessions: a writer, passes and an encoder that programs are run through, with running totals.
All three may be any. A program that is refused leaves the totals as they were. -/

namespace PatchCode

structure Session where
  writer : CodeWriter
  passes : List Rewriting := Pass.standard
  encoder : Encoder := powerPC
  statistics : Statistics := {}

namespace Session

/-- Runs a pass and logs the numbers of patches before and after. -/
def runPass (program : List Patch) (pass : Rewriting) : Traced (List Patch) := do
  let result := pass.run program
  Traced.note (.passed pass.name program.length result.length)
  return result

/-- A program before and after the passes. -/
structure Built where
  assembled : List Patch
  optimized : List Patch

def assembleAndOptimize (s : Session) (lines : List String) : Traced Built := do
  let assembled ← assemble s.encoder lines
  let optimized ← s.passes.foldlM runPass assembled
  return ⟨assembled, optimized⟩

/-- What building a program adds to the totals. -/
def Built.statistics (b : Built) (lines : List String) : Statistics :=
  { linesRead := lines.length
    unitsAssembled := Patch.countAll b.assembled
    unitsOptimized := Patch.countAll b.optimized }

/-- What writing a program adds to the totals. -/
def written (listing : Listing String) : Statistics :=
  { programsCompiled := 1
    outputLines := listing.lines.length
    warnings := listing.warnings.length
    errors := listing.errors.length }

/-- Assembles and simplifies a program. -/
def build (s : Session) (lines : List String) : Traced (List Patch) × Session :=
  let built := s.assembleAndOptimize lines
  match built.result with
  | .ok b =>
    (⟨built.events, .ok b.optimized⟩, { s with statistics := s.statistics + b.statistics lines })
  | .error fault => (⟨built.events, .error fault⟩, s)

/-- Builds a program and writes it. -/
def compile (s : Session) (lines : List String) : Traced (Listing String) × Session :=
  let (built, s') := s.build lines
  match built.result with
  | .ok program =>
    let listing := s.writer.write program
    let statistics := s'.statistics + written listing
    (⟨built.events ++ listing.events ++ [.compiled s.writer.name statistics], .ok listing⟩,
      { s' with statistics })
  | .error fault => (⟨built.events, .error fault⟩, s')

end Session

end PatchCode
