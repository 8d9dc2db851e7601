import Mathlib.Tactic
import PatchCode.Proofs.Replay

/-! Programs of nothing but writes. Whatever passes have simplified such a program, its code lines
replay to the memory that its own writes leave. -/

namespace PatchCode

namespace Patch

mutual

def isPlain : Patch → Bool
  | write _ => true
  | block body | group body => allPlain body
  | guard _ _ | adjust _ => false

def allPlain : List Patch → Bool
  | [] => true
  | p :: ps => isPlain p && allPlain ps

end

/-- All byte stores of a program, whatever their conditions. -/
def stores (program : List Patch) : List (Address × UInt8) :=
  (allWrites program).flatMap Write.stores

theorem length_stores (program : List Patch) :
    (stores program).length = ((allWrites program).map Write.size).sum := by
  simp only [stores, List.length_flatMap, Write.stores, Write.length_storesFrom]
  rfl

mutual

theorem effects_of_plain : ∀ {p : Patch}, isPlain p = true →
    effects p = ((writes p).flatMap Write.stores).map fun (a, b) => .store a b
  | write data, _ => by simp [effects, writes, Write.effects]
  | block _, h | group _, h => allEffects_of_plain h

theorem allEffects_of_plain : ∀ {ps : List Patch}, allPlain ps = true →
    allEffects ps = (stores ps).map fun (a, b) => .store a b
  | [], _ => rfl
  | p :: ps, h => by
    rw [allPlain, Bool.and_eq_true] at h
    rw [allEffects, effects_of_plain h.1, allEffects_of_plain h.2, stores, stores, allWrites,
      List.flatMap_append, List.map_append]

end

mutual

theorem isPlain_of_effects :
    ∀ {p : Patch}, (∀ e ∈ effects p, ∃ a b, e = .store a b) → isPlain p = true
  | write _, _ => rfl
  | block _, h | group _, h => allPlain_of_effects h
  | guard _ _, h | adjust _, h => by
    obtain ⟨a, b, he⟩ := h _ List.mem_cons_self
    cases he

theorem allPlain_of_effects : ∀ {ps : List Patch}, (∀ e ∈ allEffects ps, ∃ a b, e = .store a b) →
    allPlain ps = true
  | [], _ => rfl
  | p :: ps, h => by
    rw [allPlain, Bool.and_eq_true]
    exact ⟨isPlain_of_effects fun e he => h e (List.mem_append_left _ he),
      allPlain_of_effects fun e he => h e (List.mem_append_right _ he)⟩

end

end Patch

theorem Simplification.plain_runAll (steps : List Simplification) {program : List Patch}
    (h : Patch.allPlain program = true) :
    Patch.allPlain (runAll steps program) = true ∧
    Patch.stores (runAll steps program) = Patch.stores program := by
  have heffects := allEffects_runAll steps program
  rw [Patch.allEffects_of_plain h] at heffects
  have hplain : Patch.allPlain (runAll steps program) = true := by
    apply Patch.allPlain_of_effects
    intro e he
    rw [heffects] at he
    obtain ⟨⟨a, b⟩, -, rfl⟩ := List.mem_map.mp he
    exact ⟨a, b, rfl⟩
  rw [Patch.allEffects_of_plain hplain] at heffects
  refine ⟨hplain, List.map_injective_iff.mpr ?_ heffects⟩
  rintro ⟨a, b⟩ ⟨c, d⟩ heq
  cases heq
  rfl

mutual

theorem ActionReplay.lines_of_plain : ∀ {p : Patch}, p.isPlain = true →
    (write p).lines = p.writes.flatMap fun w => (writeData w).lines
  | .write data, _ => by simp [write, Patch.writes]
  | .block _, h | .group _, h => ActionReplay.allLines_of_plain h

theorem ActionReplay.allLines_of_plain : ∀ {ps : List Patch}, Patch.allPlain ps = true →
    (writeAll ps).lines = (Patch.allWrites ps).flatMap fun w => (writeData w).lines
  | [], _ => rfl
  | p :: ps, h => by
    rw [Patch.allPlain, Bool.and_eq_true] at h
    rw [Patch.allWrites, List.flatMap_append, ← ActionReplay.lines_of_plain h.1,
      ← ActionReplay.allLines_of_plain h.2]
    rfl

end

mutual

theorem Gecko.lines_of_plain (style : Style) : ∀ {p : Patch}, p.isPlain = true →
    (write style p).lines = p.writes.flatMap fun w => (writeData style w).lines
  | .write data, _ => by simp [write, Patch.writes]
  | .block _, h | .group _, h => Gecko.allLines_of_plain style h

theorem Gecko.allLines_of_plain (style : Style) : ∀ {ps : List Patch}, Patch.allPlain ps = true →
    (writeAll style ps).lines = (Patch.allWrites ps).flatMap fun w => (writeData style w).lines
  | [], _ => rfl
  | p :: ps, h => by
    rw [Patch.allPlain, Bool.and_eq_true] at h
    rw [Patch.allWrites, List.flatMap_append, ← Gecko.lines_of_plain style h.1,
      ← Gecko.allLines_of_plain style h.2]
    rfl

end

/-- A program of nothing but writes. -/
theorem replay_write_of_plain (writer : Writer) (hwriter : writer.dialect ≠ .bytes)
    {program : List Patch} (hplain : Patch.allPlain program = true)
    (hsize : (Patch.stores program).length < 2 ^ 32) :
    replay writer.dialect (writer.write program).lines =
      .ok (Image.insertAll ∅ ((Patch.allWrites program).flatMap Write.cells)) := by
  cases writer with
  | bytes => exact absurd rfl hwriter
  | actionReplay =>
    have hencodes : Replay.Encodes .actionReplay (ActionReplay.writeAll program).lines
        ((Patch.allWrites program).flatMap Write.cells) := by
      rw [ActionReplay.allLines_of_plain hplain]
      exact .flatMap fun w _ => w.encodes_actionReplay
    exact hencodes.replay hwriter
  | gecko style =>
    have hencodes : Replay.Encodes .gecko (Gecko.writeAll style program).lines
        ((Patch.allWrites program).flatMap Write.cells) := by
      rw [Gecko.allLines_of_plain style hplain]
      refine .flatMap fun w hw => w.encodes_gecko style ?_
      rw [Patch.length_stores] at hsize
      exact lt_of_le_of_lt (List.single_le_sum (by simp) _ (List.mem_map_of_mem hw)) hsize
    exact hencodes.replay hwriter

theorem replay_write_simplified (writer : Writer) (hwriter : writer.dialect ≠ .bytes)
    (program : List Patch) (hplain : Patch.allPlain program = true)
    (hsize : ((Patch.allWrites program).map Write.size).sum < 2 ^ 32)
    (steps : List Simplification) :
    replay writer.dialect (writer.write (Simplification.runAll steps program)).lines =
      .ok (Image.stored (Patch.allWrites program)) := by
  obtain ⟨hplain', hstores⟩ := Simplification.plain_runAll steps hplain
  have hcells : ∀ ps, (Patch.allWrites ps).flatMap Write.cells =
      (Patch.stores ps).map fun (a, b) => (a.inRecord, b) := fun ps => by
    rw [Patch.stores, List.map_flatMap]
    rfl
  have hsize' : (Patch.stores (Simplification.runAll steps program)).length < 2 ^ 32 := by
    rw [hstores, Patch.length_stores]
    exact hsize
  rw [replay_write_of_plain writer hwriter hplain' hsize', hcells, hstores, ← hcells,
    Image.stored_eq_insertAll]

def overlapping : List Patch :=
  [.block [.write ⟨0x81FFFFFD, [1, 1, 1, 1, 1, 1]⟩,
      .group [.write ⟨0x82000003, [2, 3]⟩, .write ⟨0x82000005, [2, 3, 2]⟩]],
    .write ⟨0x80000001, [4]⟩, .group []]

theorem replay_overlapping :
    (Writer.dialect (.gecko {}) ≠ .bytes ∧ Patch.allPlain overlapping = true ∧
        ((Patch.allWrites overlapping).map Write.size).sum < 2 ^ 32) ∧
      replay (Writer.dialect (.gecko {}))
          ((Writer.gecko {}).write (Simplification.runAll [.flatten, .merge, .realign,
            .merge] overlapping)).lines =
        .ok (Image.stored (Patch.allWrites overlapping)) := by
  have hwriter : Writer.dialect (.gecko {}) ≠ .bytes := by decide
  have hplain : Patch.allPlain overlapping = true := by decide
  have hsize : ((Patch.allWrites overlapping).map Write.size).sum < 2 ^ 32 := by decide
  exact ⟨⟨hwriter, hplain, hsize⟩,
    replay_write_simplified (.gecko {}) hwriter overlapping hplain hsize [.flatten, .merge,
      .realign, .merge]⟩

end PatchCode
