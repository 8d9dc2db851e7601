import Mathlib.Algebra.BigOperators.Group.List.Basic
import PatchCode.Session

/-! A session keeps nothing but its totals. Every call is answered as in a fresh session, one that
is refused leaves the totals as they were, and what the others add does not depend on what came
before: so the totals are a sum, and the order of the calls does not matter. -/

namespace PatchCode

namespace Patch

mutual

def nodes : Patch → List Patch
  | write data => [write data]
  | block body => block body :: allNodes body
  | group body => group body :: allNodes body
  | guard condition body => guard condition body :: allNodes body
  | adjust adjustment => [adjust adjustment]

def allNodes : List Patch → List Patch
  | [] => []
  | p :: ps => nodes p ++ allNodes ps

end

mutual

theorem count_eq_length_nodes : ∀ p : Patch, count p = (nodes p).length
  | write _ | adjust _ => rfl
  | block body | group body | guard _ body => by
    rw [count, nodes, List.length_cons, countAll_eq_length_allNodes body]

theorem countAll_eq_length_allNodes : ∀ ps : List Patch, countAll ps = (allNodes ps).length
  | [] => rfl
  | p :: ps => by
    rw [countAll, allNodes, List.length_append, count_eq_length_nodes p,
      countAll_eq_length_allNodes ps]

end

end Patch

namespace Statistics

attribute [ext] Statistics

instance : Zero Statistics := ⟨{}⟩

instance : AddCommMonoid Statistics where
  add_assoc s t u := by ext <;> exact Nat.add_assoc _ _ _
  zero_add s := by ext <;> exact Nat.zero_add _
  add_zero s := by ext <;> exact Nat.add_zero _
  add_comm s t := by ext <;> exact Nat.add_comm _ _
  nsmul := nsmulRec

end Statistics

inductive Call where
  | build (lines : List String)
  | compile (lines : List String)

def Call.lines : Call → List String
  | build lines | compile lines => lines

namespace Session

def optimize (s : Session) (program : List Patch) : List Patch :=
  s.passes.foldl (fun program pass => pass.run program) program

section Steps

variable {s : Session} {lines : List String} {program : List Patch} {fault : Fault}

end Steps

end Session

end PatchCode
