import Mathlib.Tactic
import PatchCode.Dialect
import PatchCode.Proofs.Effects

/-! What a writer warns about and leaves out depends on what a program does, and not on how its data
is cut into writes. All writers go through a program alike, and differ in what they do with single
patches: so this is said once, of any writer whose guards look no further into their bodies than
whether there are lines. -/

namespace PatchCode

namespace Listing

variable {α : Type}

structure Alike (l m : Listing α) : Prop where
  lines : l.lines = [] ↔ m.lines = []
  warnings : l.warnings = m.warnings
  errors : l.errors = m.errors

namespace Alike

variable {l m n l' m' : Listing α}

theorem refl (l : Listing α) : Alike l l := ⟨.rfl, rfl, rfl⟩

theorem symm (h : Alike l m) : Alike m l := ⟨h.lines.symm, h.warnings.symm, h.errors.symm⟩

theorem trans (h : Alike l m) (h' : Alike m n) : Alike l n :=
  ⟨h.lines.trans h'.lines, h.warnings.trans h'.warnings, h.errors.trans h'.errors⟩

theorem append (h : Alike l m) (h' : Alike l' m') : Alike (l ++ l') (m ++ m') where
  lines := by simp only [lines_append, List.append_eq_nil_iff, h.lines, h'.lines]
  warnings := by rw [warnings_append, warnings_append, h.warnings, h'.warnings]
  errors := by rw [errors_append, errors_append, h.errors, h'.errors]

theorem withoutLines (h : Alike l m) : Alike l.withoutLines m.withoutLines :=
  ⟨.rfl, h.warnings, h.errors⟩

theorem ofLines (x y : α) (xs ys : List α) : Alike (.ofLines (x :: xs)) (.ofLines (y :: ys)) :=
  ⟨by simp, rfl, rfl⟩

theorem isEmpty_lines (h : Alike l m) : l.lines.isEmpty = m.lines.isEmpty := by
  rw [Bool.eq_iff_iff, List.isEmpty_iff, List.isEmpty_iff, h.lines]

end Alike

end Listing

open Listing (Alike)

/-- What a writer does with each kind of patch. Its settings may be others inside guards. -/
structure Scheme (σ α : Type) where
  data : σ → Write → Listing α
  adjust : σ → Adjustment → Listing α
  frame : Condition → Listing α → Listing α
  inBody : σ → σ

namespace Scheme

variable {σ α : Type} (S : Scheme σ α)

mutual

def write (s : σ) : Patch → Listing α
  | .write w => S.data s w
  | .block body | .group body => writeAll s body
  | .guard c body => S.frame c (writeAll (S.inBody s) body)
  | .adjust a => S.adjust s a

def writeAll (s : σ) : List Patch → Listing α
  | [] => {}
  | p :: ps => write s p ++ writeAll s ps

end

theorem writeAll_append (s : σ) (ps qs : List Patch) :
    S.writeAll s (ps ++ qs) = S.writeAll s ps ++ S.writeAll s qs := by
  induction ps with
  | nil => rfl
  | cons p ps ih => rw [List.cons_append, writeAll, writeAll, ih, Listing.append_assoc]

theorem writeAll_singleton (s : σ) (p : Patch) : S.writeAll s [p] = S.write s p :=
  Listing.append_empty _

mutual

theorem writeAll_flatten : ∀ (s : σ) (p : Patch), S.writeAll s (Patch.flatten p) = S.write s p
  | s, .write _ | s, .adjust _ => S.writeAll_singleton s _
  | s, .group body => writeAll_flattenAll s body
  | s, .block body | s, .guard _ body => by
    rw [Patch.flatten, writeAll_singleton, write, write, writeAll_flattenAll _ body]

/-- Groups are written as what they hold. -/
theorem writeAll_flattenAll :
    ∀ (s : σ) (ps : List Patch), S.writeAll s (Patch.flattenAll ps) = S.writeAll s ps
  | _, [] => rfl
  | s, p :: ps => by
    rw [Patch.flattenAll, writeAll_append, writeAll_flatten s p, writeAll_flattenAll s ps, writeAll]

end

mutual

def effect (s : σ) : Effect → Listing α
  | .store a b => S.data s ⟨a, [b]⟩
  | .adjust a => S.adjust s a
  | .guard c body => S.frame c (effects (S.inBody s) body)

def effects (s : σ) : List Effect → Listing α
  | [] => {}
  | e :: es => effect s e ++ effects s es

end

theorem effects_append (s : σ) (es fs : List Effect) :
    S.effects s (es ++ fs) = S.effects s es ++ S.effects s fs := by
  induction es with
  | nil => rfl
  | cons e es ih => rw [List.cons_append, effects, effects, ih, Listing.append_assoc]

/-- Writes are written without a remark, and as no lines only if they hold no bytes; guards see of
their bodies only the diagnostics and whether there are lines. -/
structure Steady : Prop where
  lines_data : ∀ s w, (S.data s w).lines = [] ↔ w.bytes = []
  warnings_data : ∀ s w, (S.data s w).warnings = []
  errors_data : ∀ s w, (S.data s w).errors = []
  alike_frame : ∀ (c : Condition) {l m : Listing α}, Alike l m → Alike (S.frame c l) (S.frame c m)

variable {S}

theorem alike_data (hS : S.Steady) (s : σ) (a : Address) (bytes : List UInt8) :
    Alike (S.data s ⟨a, bytes⟩) (S.effects s ((Write.storesFrom a bytes).map fun (a, b) =>
      .store a b)) := by
  induction bytes generalizing a with
  | nil =>
    exact ⟨by simp [hS.lines_data, Write.storesFrom, effects], hS.warnings_data _ _,
      hS.errors_data _ _⟩
  | cons b bytes ih =>
    -- One write of all bytes is like one of the first byte and one of the rest.
    refine .trans ⟨?_, ?_, ?_⟩ ((Alike.refl (S.data s ⟨a, [b]⟩)).append (ih (a + 1)))
    · simp [hS.lines_data]
    · simp [hS.warnings_data]
    · simp [hS.errors_data]

mutual

theorem alike_write (hS : S.Steady) :
    ∀ (s : σ) (p : Patch), Alike (S.write s p) (S.effects s p.effects)
  | s, .write w => alike_data hS s w.address w.bytes
  | s, .block body | s, .group body => alike_writeAll hS s body
  | s, .guard c body => by
    rw [write, Patch.effects, effects, effect, effects, Listing.append_empty]
    exact hS.alike_frame c (alike_writeAll hS (S.inBody s) body)
  | s, .adjust a => by
    rw [write, Patch.effects, effects, effect, effects, Listing.append_empty]
    exact .refl _

/-- Written byte by byte a program meets the same diagnostics. -/
theorem alike_writeAll (hS : S.Steady) : ∀ (s : σ) (ps : List Patch),
    Alike (S.writeAll s ps) (S.effects s (Patch.allEffects ps))
  | _, [] => .refl _
  | s, p :: ps => by
    rw [writeAll, Patch.allEffects, effects_append]
    exact (alike_write hS s p).append (alike_writeAll hS s ps)

end

theorem alike_runAll (hS : S.Steady) (s : σ) (steps : List Simplification) (program : List Patch) :
    Alike (S.writeAll s (Simplification.runAll steps program)) (S.writeAll s program) := by
  have hsteps := alike_writeAll hS s (Simplification.runAll steps program)
  rw [Simplification.allEffects_runAll] at hsteps
  exact hsteps.trans (alike_writeAll hS s program).symm

end Scheme

theorem Write.plan_eq_nil (w : Write) (limits : FillLimits) :
    w.plan limits = [] ↔ w.bytes = [] := by
  rw [Write.plan]
  cases w.bytes with
  | nil => simp
  | cons b bytes => simp [Plan.plan_cons]

namespace ActionReplay

def scheme : Scheme Unit Record := ⟨fun _ => writeData, fun _ => adjust, frame, id⟩

mutual

theorem write_eq_scheme : ∀ p : Patch, write p = scheme.write () p
  | .write _ | .adjust _ => rfl
  | .block body | .group body => writeAll_eq_scheme body
  | .guard c body => congrArg (frame c) (writeAll_eq_scheme body)

theorem writeAll_eq_scheme : ∀ ps : List Patch, writeAll ps = scheme.writeAll () ps
  | [] => rfl
  | p :: ps => by rw [writeAll, Scheme.writeAll, write_eq_scheme p, writeAll_eq_scheme ps]

end

/-- The number of lines in a body decides the extent of its guard, and nothing else. -/
theorem alike_frame (c : Condition) {l m : Listing Record} (h : Alike l m) :
    Alike (frame c l) (frame c m) := by
  unfold frame
  rw [h.isEmpty_lines]
  split_ifs
  · exact h.append (.refl _)
  · exact (h.withoutLines.append (.refl _)).append (.ofLines _ _ _ _)

theorem steady_scheme : scheme.Steady where
  lines_data _ w := by
    change (w.plan limits).map ofWriteRecord = [] ↔ _
    rw [List.map_eq_nil_iff, Write.plan_eq_nil]
  warnings_data _ _ := rfl
  errors_data _ _ := rfl
  alike_frame := alike_frame

end ActionReplay

namespace Gecko

def scheme : Scheme Style Record :=
  ⟨writeData, fun style => adjust style.register, frame, Style.inBody⟩

mutual

theorem write_eq_scheme : ∀ (style : Style) (p : Patch), write style p = scheme.write style p
  | _, .write _ | _, .adjust _ => rfl
  | style, .block body | style, .group body => writeAll_eq_scheme style body
  | style, .guard c body => congrArg (frame c) (writeAll_eq_scheme style.inBody body)

theorem writeAll_eq_scheme :
    ∀ (style : Style) (ps : List Patch), writeAll style ps = scheme.writeAll style ps
  | _, [] => rfl
  | style, p :: ps => by
    rw [writeAll, Scheme.writeAll, write_eq_scheme style p, writeAll_eq_scheme style ps]

end

theorem alike_frame (c : Condition) {l m : Listing Record} (h : Alike l m) :
    Alike (frame c l) (frame c m) := by
  unfold frame
  rw [h.isEmpty_lines]
  split_ifs
  · exact h
  · cases header c with
    | ok record => exact (h.withoutLines.append (.refl _)).append (.ofLines _ _ _ _)
    | error refusal => exact h.withoutLines.append (.refl _)

theorem lines_writeData_eq_nil (style : Style) (w : Write) :
    (writeData style w).lines = [] ↔ w.bytes = [] := by
  have hfills : runLength w = [] ↔
      w.bytes = [] := by rw [runLength, List.map_eq_nil_iff, Write.plan_eq_nil]
  simp only [writeData]
  split_ifs with hbulk hshort
  · -- Both sides fail: a bulk store has a header, and is only made of more than a few bytes.
    have hlong : smallWrite < w.size := of_decide_eq_true (Bool.and_eq_true_iff.mp hbulk).2
    have hbytes : w.bytes ≠ [] := List.ne_nil_of_length_pos (Nat.zero_lt_of_lt hlong)
    simp [bulk, hbytes]
  · simpa [Listing.ofEvent] using hfills
  · exact hfills

theorem silent_writeData (style : Style) (w : Write) :
    (writeData style w).warnings = [] ∧ (writeData style w).errors = [] := by
  simp only [writeData]
  split_ifs <;> exact ⟨rfl, rfl⟩

theorem steady_scheme : scheme.Steady where
  lines_data := lines_writeData_eq_nil
  warnings_data style w := (silent_writeData style w).1
  errors_data style w := (silent_writeData style w).2
  alike_frame := alike_frame

end Gecko

namespace Dump

def scheme : Scheme Unit String := ⟨fun _ w => .ofLines (rows w), fun _ _ => {}, fun _ _ => {}, id⟩

mutual

theorem write_eq_scheme : ∀ p : Patch, write p = scheme.write () p
  | .write _ | .adjust _ | .guard _ _ => rfl
  | .block body | .group body => writeAll_eq_scheme body

theorem writeAll_eq_scheme : ∀ ps : List Patch, writeAll ps = scheme.writeAll () ps
  | [] => rfl
  | p :: ps => by rw [writeAll, Scheme.writeAll, write_eq_scheme p, writeAll_eq_scheme ps]

end

theorem steady_scheme : scheme.Steady where
  lines_data _ w := by
    change (Bytes.chunks 8 w.bytes).map row = [] ↔ _
    rw [List.map_eq_nil_iff]
    cases w.bytes with
    | nil => simp
    | cons b bytes => simp [Bytes.chunks_cons]
  warnings_data _ _ := rfl
  errors_data _ _ := rfl
  alike_frame _ _ _ _ := .refl _

end Dump

/-- Every writer is such a scheme, its lines rendered. -/
theorem Writer.exists_scheme (writer : Writer) :
    ∃ (σ α : Type) (S : Scheme σ α) (s : σ) (render : α → String),
      S.Steady ∧ ∀ program, writer.write program = (S.writeAll s program).map render := by
  cases writer with
  | actionReplay =>
    refine ⟨_, _, ActionReplay.scheme, (), Record.render, ActionReplay.steady_scheme,
      fun program => ?_⟩
    rw [write, ActionReplay.writeAll_eq_scheme]
  | gecko style =>
    refine ⟨_, _, Gecko.scheme, style, Record.render, Gecko.steady_scheme, fun program => ?_⟩
    rw [write, Gecko.writeAll_eq_scheme]
  | bytes =>
    refine ⟨_, _, Dump.scheme, (), id, Dump.steady_scheme, fun program => ?_⟩
    rw [write, Dump.writeAll_eq_scheme, Listing.map, List.map_id]

/-- Splicing repeat groups changes nothing that is written, and no order of passes changes what a
writer warns about or leaves out. -/
theorem diagnostics_simplified (writer : Writer) (program : List Patch) :
    writer.write (Patch.flattenAll program) = writer.write program ∧
      ∀ steps : List Simplification,
        (writer.write (Simplification.runAll steps program)).warnings =
          (writer.write program).warnings ∧
          (writer.write (Simplification.runAll steps program)).errors =
            (writer.write program).errors := by
  obtain ⟨σ, α, S, s, render, hsteady, hwrite⟩ := writer.exists_scheme
  refine ⟨?_, fun steps => ?_⟩
  · rw [hwrite, hwrite, S.writeAll_flattenAll]
  · have halike := Scheme.alike_runAll hsteady s steps program
    rw [hwrite, hwrite]
    exact ⟨halike.warnings, halike.errors⟩

end PatchCode
