import PatchCode.Patch.Pass
import PatchCode.Proofs.Address

/-! What a program does, byte by byte and in order. Blocks, repeat groups and the way in which data
is cut into writes leave no trace in the effects of a program, so no simplification changes them. -/

namespace PatchCode

namespace Write

def storesFrom : Address → List UInt8 → List (Address × UInt8)
  | _, [] => []
  | a, b :: bytes => (a, b) :: storesFrom (a + 1) bytes

def stores (w : Write) : List (Address × UInt8) := storesFrom w.address w.bytes

theorem storesFrom_append (a : Address) (front back : List UInt8) :
    storesFrom a (front ++ back) =
      storesFrom a front ++ storesFrom (a.advance front.length) back := by
  induction front generalizing a with
  | nil => simp [storesFrom, Address.advance]
  | cons b front ih =>
    simp only [List.cons_append, storesFrom, ih, List.length_cons, Address.advance_succ]

@[simp] theorem length_storesFrom (a : Address) (bytes : List UInt8) :
    (storesFrom a bytes).length = bytes.length := by
  induction bytes generalizing a with
  | nil => rfl
  | cons b bytes ih => simp [storesFrom, ih]

theorem stores_split (w : Write) {n : Nat} (h : n ≤ w.size) :
    (w.split n).1.stores ++ (w.split n).2.stores = w.stores := by
  have hlen : (w.bytes.take n).length = n := List.length_take_of_le h
  have := storesFrom_append w.address (w.bytes.take n) (w.bytes.drop n)
  rw [List.take_append_drop, hlen] at this
  exact this.symm

theorem stores_join {w next : Write} (h : w.followedBy next = true) :
    (w.join next).stores = w.stores ++ next.stores := by
  have hstop : w.address.advance w.bytes.length = next.address := by
    simpa [followedBy, stop, size] using h
  simp only [stores, join, storesFrom_append, hstop]

/-- The second writes are the first in pieces, one behind the other. -/
inductive Pieces : Write → List Write → Prop
  | whole (w : Write) : Pieces w [w]
  | cut {w : Write} {n : Nat} {ws : List Write} (hpos : 0 < n) (hlt : n < w.size)
      (h : Pieces (w.split n).2 ws) :
    Pieces w ((w.split n).1 :: ws)

theorem pieces_toWordBoundary (w : Write) : Pieces w w.toWordBoundary := by
  unfold toWordBoundary
  split_ifs with h
  · exact .cut (by omega) (by omega) (.whole _)
  · exact .whole w

theorem pieces_realign (w : Write) : Pieces w w.realign := by
  unfold realign
  split_ifs with h
  · exact .cut (by omega) (by omega) (pieces_toWordBoundary _)
  · exact pieces_toWordBoundary w

theorem flatMap_stores_pieces {w : Write} {ws : List Write} (h : Pieces w ws) :
    ws.flatMap stores = w.stores := by
  induction h with
  | whole w => simp
  | @cut w n ws _ hlt _ ih =>
    rw [List.flatMap_cons, ih]
    exact stores_split w (Nat.le_of_lt hlt)

end Write

inductive Effect where
  | store (address : Address) (value : UInt8)
  | adjust (adjustment : Adjustment)
  | guard (condition : Condition) (body : List Effect)

def Write.effects (w : Write) : List Effect := w.stores.map fun (a, b) => .store a b

namespace Patch

mutual

def effects : Patch → List Effect
  | write data => data.effects
  | block body | group body => allEffects body
  | guard condition body => [.guard condition (allEffects body)]
  | adjust adjustment => [.adjust adjustment]

def allEffects : List Patch → List Effect
  | [] => []
  | p :: ps => effects p ++ allEffects ps

end

theorem allEffects_append (ps qs : List Patch) :
    allEffects (ps ++ qs) = allEffects ps ++ allEffects qs := by
  induction ps with
  | nil => rfl
  | cons p ps ih => simp only [List.cons_append, allEffects, ih, List.append_assoc]

theorem allEffects_singleton (p : Patch) : allEffects [p] = effects p := by
  simp only [allEffects, List.append_nil]

theorem allEffects_writes (ws : List Write) :
    allEffects (ws.map write) = (ws.flatMap Write.stores).map fun (a, b) => .store a b := by
  induction ws with
  | nil => rfl
  | cons w ws ih =>
    simp only [List.map_cons, allEffects, effects, ih, Write.effects, List.flatMap_cons,
      List.map_append]

mutual

theorem allEffects_flatten : ∀ p : Patch, allEffects (flatten p) = effects p
  | write _ | adjust _ => allEffects_singleton _
  | group body => allEffects_flattenAll body
  | block body => by
    simp only [flatten, allEffects_singleton, effects, allEffects_flattenAll body]
  | guard _ body => by
    simp only [flatten, allEffects_singleton, effects, allEffects_flattenAll body]

theorem allEffects_flattenAll : ∀ ps : List Patch, allEffects (flattenAll ps) = allEffects ps
  | [] => rfl
  | p :: ps => by
    rw [flattenAll, allEffects_append, allEffects_flatten p, allEffects_flattenAll ps, allEffects]

end

/-- Joining two writes concatenates their stores, and any other patch is only put in front. -/
theorem allEffects_joinFront (p : Patch) (ps : List Patch) :
    allEffects (joinFront p ps) = effects p ++ allEffects ps := by
  unfold joinFront
  split
  next w next ps =>
    split_ifs with h
    · simp only [allEffects, effects, Write.effects, Write.stores_join h, List.map_append,
        List.append_assoc]
    · rfl
  next => rfl

mutual

theorem effects_merge : ∀ p : Patch, effects (merge p) = effects p
  | write _ | adjust _ => rfl
  | block body | group body => by simp only [merge, effects, allEffects_mergeAll body]
  | guard _ body => by simp only [merge, effects, allEffects_mergeAll body]

theorem allEffects_mergeAll : ∀ ps : List Patch, allEffects (mergeAll ps) = allEffects ps
  | [] => rfl
  | p :: ps => by
    rw [mergeAll, allEffects_joinFront, effects_merge p, allEffects_mergeAll ps, allEffects]

end

mutual

theorem allEffects_realign : ∀ p : Patch, allEffects (realign p) = effects p
  | write data => by
    rw [realign, allEffects_writes, Write.flatMap_stores_pieces data.pieces_realign, effects,
      Write.effects]
  | adjust _ => allEffects_singleton _
  | block body | group body => by
    simp only [realign, allEffects_singleton, effects, allEffects_realignAll body]
  | guard _ body => by
    simp only [realign, allEffects_singleton, effects, allEffects_realignAll body]

theorem allEffects_realignAll : ∀ ps : List Patch, allEffects (realignAll ps) = allEffects ps
  | [] => rfl
  | p :: ps => by
    rw [realignAll, allEffects_append, allEffects_realign p, allEffects_realignAll ps, allEffects]

end

end Patch

/-- The passes one by one, with both halves of the write pass apart. -/
inductive Simplification where
  | flatten | merge | realign
  deriving Repr, DecidableEq

namespace Simplification

def run : Simplification → List Patch → List Patch
  | flatten, program => Patch.flattenAll program
  | merge, program => Patch.mergeAll program
  | realign, program => Patch.realignAll program

def runAll (steps : List Simplification) (program : List Patch) : List Patch :=
  steps.foldl (fun program step => step.run program) program

theorem optimize_eq (program : List Patch) :
    Patch.optimize program = runAll [flatten, merge, realign] program := rfl

theorem allEffects_run (step : Simplification) (program : List Patch) :
    Patch.allEffects (step.run program) = Patch.allEffects program := by
  cases step with
  | flatten => exact Patch.allEffects_flattenAll program
  | merge => exact Patch.allEffects_mergeAll program
  | realign => exact Patch.allEffects_realignAll program

/-- No order of passes changes what a program does. -/
theorem allEffects_runAll (steps : List Simplification) (program : List Patch) :
    Patch.allEffects (runAll steps program) = Patch.allEffects program := by
  induction steps generalizing program with
  | nil => rfl
  | cons step steps ih =>
    rw [runAll, List.foldl_cons]
    exact (ih (step.run program)).trans (allEffects_run step program)

end Simplification

end PatchCode
