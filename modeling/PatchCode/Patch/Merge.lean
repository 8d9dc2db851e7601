import PatchCode.Patch.Basic

/-! Joining neighbouring writes whose bytes are contiguous, in every sequence at every depth. -/

namespace PatchCode.Patch

/-- Puts a patch in front of a sequence, joining it with the first one if both are writes and
contiguous. -/
def joinFront : Patch → List Patch → List Patch
  | write w, write next :: ps =>
    if w.followedBy next then write (w.join next) :: ps else write w :: write next :: ps
  | p, ps => p :: ps

mutual

def merge : Patch → Patch
  | write data => write data
  | block body => block (mergeAll body)
  | group body => group (mergeAll body)
  | guard condition body => guard condition (mergeAll body)
  | adjust adjustment => adjust adjustment

def mergeAll : List Patch → List Patch
  | [] => []
  | p :: ps => joinFront (merge p) (mergeAll ps)

end

end PatchCode.Patch
