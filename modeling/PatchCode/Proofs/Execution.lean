import PatchCode.Bytes
import PatchCode.Proofs.Effects

/-! Running a program on a memory. Its run depends only on its effects, hence no simplification
changes it, whatever its conditions and adjustments are taken to mean. -/

namespace PatchCode

/-- A memory of `2 ^ bits` bytes. -/
def Memory (bits : Nat) : Type := BitVec bits → UInt8

namespace Memory

variable {bits : Nat}

/-- Where an address lies, modulo the size of memory. -/
def cell (bits : Nat) (a : Address) : BitVec bits := a.toBitVec.setWidth bits

def set (m : Memory bits) (a : Address) (b : UInt8) : Memory bits :=
  fun c => if c = cell bits a then b else m c

def store : Memory bits → Address → List UInt8 → Memory bits
  | m, _, [] => m
  | m, a, b :: bytes => store (m.set a b) (a + 1) bytes

def read (m : Memory bits) : Nat → Address → List UInt8
  | 0, _ => []
  | n + 1, a => m (cell bits a) :: m.read n (a + 1)

def load (m : Memory bits) (n : Nat) (a : Address) : UInt32 := .ofNat (Bytes.toNat (m.read n a))

end Memory

structure Reading (bits : Nat) where
  holds : Condition → Memory bits → Bool
  adjust : Adjustment → Memory bits → Memory bits

namespace Patch

variable {bits : Nat} (reading : Reading bits)

mutual

def run : Patch → Memory bits → Memory bits
  | write data, m => m.store data.address data.bytes
  | block body, m | group body, m => runAll body m
  | guard condition body, m => if reading.holds condition m then runAll body m else m
  | adjust adjustment, m => reading.adjust adjustment m

def runAll : List Patch → Memory bits → Memory bits
  | [], m => m
  | p :: ps, m => runAll ps (run p m)

end

end Patch

namespace Effect

variable {bits : Nat} (reading : Reading bits)

mutual

def run : Effect → Memory bits → Memory bits
  | store a b, m => m.set a b
  | adjust adjustment, m => reading.adjust adjustment m
  | guard condition body, m => if reading.holds condition m then runAll body m else m

def runAll : List Effect → Memory bits → Memory bits
  | [], m => m
  | e :: es, m => runAll es (run e m)

end

theorem runAll_append (es fs : List Effect) (m : Memory bits) :
    runAll reading (es ++ fs) m = runAll reading fs (runAll reading es m) := by
  induction es generalizing m with
  | nil => rfl
  | cons e es ih => simp only [List.cons_append, runAll, ih]

theorem runAll_stores (a : Address) (bytes : List UInt8) (m : Memory bits) :
    runAll reading ((Write.storesFrom a bytes).map fun (a, b) => store a b) m =
      m.store a bytes := by
  induction bytes generalizing a m with
  | nil => rfl
  | cons b bytes ih => simp only [Write.storesFrom, List.map_cons, runAll, run, ih, Memory.store]

end Effect

namespace Patch

variable {bits : Nat} (reading : Reading bits)

mutual

theorem run_eq_effects : ∀ (p : Patch) (m : Memory bits),
    run reading p m = Effect.runAll reading (effects p) m
  | write data, m => (Effect.runAll_stores reading data.address data.bytes m).symm
  | adjust _, m => rfl
  | block body, m | group body, m => runAll_eq_effects body m
  | guard condition body, m => by
    simp only [run, effects, Effect.runAll, Effect.run, runAll_eq_effects body]

theorem runAll_eq_effects : ∀ (ps : List Patch) (m : Memory bits),
    runAll reading ps m = Effect.runAll reading (allEffects ps) m
  | [], m => rfl
  | p :: ps, m => by
    rw [runAll, allEffects, Effect.runAll_append, run_eq_effects p, runAll_eq_effects ps]

end

/-- Simplifying a program leaves the memory that it ends in as it was, for every meaning of its
conditions and adjustments and every size of memory. -/
theorem runAll_optimize (program : List Patch) (m : Memory bits) :
    runAll reading (optimize program) m = runAll reading program m := by
  rw [runAll_eq_effects, runAll_eq_effects, Simplification.optimize_eq,
    Simplification.allEffects_runAll]

end Patch

end PatchCode
