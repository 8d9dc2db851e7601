import PatchCode.Patch.Basic

/-! Splicing repeat groups into the sequences that hold them, at every depth. -/

namespace PatchCode.Patch

mutual

/-- The patches that take the place of this one. -/
def flatten : Patch → List Patch
  | group body => flattenAll body
  | block body => [block (flattenAll body)]
  | guard condition body => [guard condition (flattenAll body)]
  | write data => [write data]
  | adjust adjustment => [adjust adjustment]

def flattenAll : List Patch → List Patch
  | [] => []
  | p :: ps => flatten p ++ flattenAll ps

end

theorem flattenAll_append (ps qs : List Patch) :
    flattenAll (ps ++ qs) = flattenAll ps ++ flattenAll qs := by
  induction ps with
  | nil => rfl
  | cons p ps ih => simp only [List.cons_append, flattenAll, ih, List.append_assoc]

theorem flattenAll_singleton (p : Patch) : flattenAll [p] = flatten p := by
  simp only [flattenAll, List.append_nil]

end PatchCode.Patch
