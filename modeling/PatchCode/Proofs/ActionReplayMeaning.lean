import Mathlib.Tactic
import PatchCode.Proofs.ActionReplayMachine

/-! Action Replay lines mean what the program means. The frame of a guard follows from the number of
lines under it, so the argument keeps two facts about the lines of every patch: what they do, and
that a comparison which does not hold passes over all of them. -/

namespace PatchCode.ActionReplay

/-- The lines are passed over inside a comparison that covers them all and does not hold. -/
def Skips (fpu : FloatUnit) (lines : List Record) : Prop :=
  ∀ m d, Reaches (Machine.step? fpu) ⟨m, 0, d + 1⟩ lines ⟨m, 0, d + 1⟩

def Runs (fpu : FloatUnit) (lines : List Record) (f : Memory 25 → Memory 25) : Prop :=
  ∀ m, Reaches (Machine.step? fpu) ⟨m, 0, 0⟩ lines ⟨f m, 0, 0⟩

section Simulation

variable {fpu : FloatUnit}

theorem skips_quiet {rs : List Record} (h : ∀ r ∈ rs, Quiet r) : Skips fpu rs := by
  intro m d
  induction rs with
  | nil => exact .refl
  | cons r rs ih =>
    obtain ⟨hne, hopens⟩ := h r List.mem_cons_self
    refine .cons ?_ (ih fun s hs => h s (List.mem_cons_of_mem r hs))
    simp [Machine.step?, hne, hopens]

/-- Lines that a comparison counts are passed over whatever they are. -/
theorem reaches_counted (rs : List Record) (m : Memory 25) :
    Reaches (Machine.step? fpu) ⟨m, rs.length, 0⟩ rs ⟨m, 0, 0⟩ := by
  induction rs with
  | nil => exact .refl
  | cons r rs ih => exact .cons rfl ih

theorem runs_stores {rs : List Record} {ws : List Write} (hne : ∀ r ∈ rs, r ≠ terminator)
    (h : rs.map (Replay.request .actionReplay) = ws.map .write) :
    Runs fpu rs fun m => m.storeAll ws := by
  intro m
  induction rs generalizing ws m with
  | nil =>
    obtain rfl := List.map_eq_nil_iff.mp h.symm
    exact .refl
  | cons r rs ih =>
    obtain ⟨w, vs, rfl, hw, hvs⟩ := List.map_eq_cons_iff.mp h.symm
    exact .cons (execute?_of_write fpu _ hw.symm (hne r List.mem_cons_self))
      (ih (fun s hs => hne s (List.mem_cons_of_mem r hs)) hvs.symm _)

theorem quiet_writeData {w : Write} (h : w.size < 0x400000) :
    ∀ r ∈ (writeData w).lines, Quiet r := by
  intro r hr
  obtain ⟨s, hs, rfl⟩ := List.mem_map.mp hr
  have hlegal := (w.plan_planned limits).legal s hs
  exact quiet_ofWriteRecord (lt_of_le_of_lt hlegal.2 h)

theorem runs_writeData {w : Write} (h : w.size < 0x400000) :
    Runs fpu (writeData w).lines fun m => m.store w.address w.bytes := by
  rw [← Memory.storeAll_planned limits w]
  exact runs_stores (fun r hr => (quiet_writeData h r hr).1) w.requests_actionReplay

theorem quiet_adjust (a : Adjustment) : ∀ r ∈ (adjust a).lines, Quiet r := by
  have hstore : ∀ value, Quiet (store a.type a.address value) := by
    intro value
    apply quiet_ofWriteRecord
    split <;> simp [WriteRecord.size]
  intro r hr
  unfold adjust at hr
  split at hr
  · rw [List.mem_singleton.mp hr]
    exact quiet_addition a
  · rw [List.mem_singleton.mp hr]
    exact hstore _
  · rw [List.mem_singleton.mp hr]
    exact hstore _

theorem runs_adjust {a : Adjustment} (h : (adjust a).warnings = []) :
    Runs fpu (adjust a).lines (a.apply fpu) := by
  cases ha : a.change with
  | add =>
    have hlines : (adjust a).lines = [addition a] := by simp only [adjust, ha]; rfl
    rw [hlines]
    exact fun m => .cons (execute?_addition a fpu ha ⟨m, 0, 0⟩) .refl
  | bitSet | bitUnset =>
    simp only [adjust, ha] at h
    cases h

section Frame

variable (c : Condition) {body : Listing Record}

theorem frame_of_empty (h : body.lines = []) :
    (frame c body).lines = [] ∧ (frame c body).warnings = body.warnings := by
  rw [frame, if_pos (by simp [h])]
  exact ⟨by rw [Listing.lines_append, h]; rfl, List.append_nil _⟩

theorem frame_of_lines (h : body.lines ≠ []) :
    (frame c body).lines = header c (.ofLineCount body.lines.length) ::
        (body.lines ++ (Extent.ofLineCount body.lines.length).closing) ∧
      (frame c body).warnings = body.warnings ++ (remarks c).warnings := by
  have hremarks : (remarks c).lines = [] := by unfold remarks; split_ifs <;> rfl
  rw [frame, if_neg (by simpa using h)]
  simp [hremarks]

/-- Either the header is passed over like any line, or it and the terminator count each other
out. -/
theorem skips_frame (hbody : Skips fpu body.lines) : Skips fpu (frame c body).lines := by
  intro m d
  by_cases hempty : body.lines = []
  · rw [(frame_of_empty c hempty).1]
    exact .refl
  rw [(frame_of_lines c hempty).1]
  have hne := header_ne_terminator c (.ofLineCount body.lines.length)
  have hextent := (bits_header c (.ofLineCount body.lines.length)).2.2
  have hcomparison := comparisonBits_header_ne c (.ofLineCount body.lines.length)
  generalize Extent.ofLineCount body.lines.length = extent at *
  cases extent with
  | one | two =>
    simp only [Extent.closing, List.append_nil]
    refine .cons ?_ (hbody m d)
    simp [Machine.step?, hne, opensAll, hextent, Extent.code]
  | all =>
    refine .cons (t := ⟨m, 0, d + 2⟩) ?_ ((hbody m (d + 1)).append (.cons ?_ .refl))
    · simp [Machine.step?, hne, opensAll, hcomparison, hextent, Extent.code]
    · simp [Machine.step?]

theorem reaches_closing (e : Extent) (m : Memory 25) :
    Reaches (Machine.step? fpu) ⟨m, 0, 0⟩ e.closing ⟨m, 0, 0⟩ := by
  cases e with
  | one | two => exact .refl
  | all => exact .cons (by simp [Machine.step?, Machine.execute?]) .refl

/-- A comparison that does not hold leaves out exactly what was written under it. -/
theorem reaches_skipped {rs : List Record} (h : Skips fpu rs) (m : Memory 25) :
    Reaches (Machine.step? fpu) (Machine.skip ⟨m, 0, 0⟩ (.ofLineCount rs.length))
      (rs ++ (Extent.ofLineCount rs.length).closing) ⟨m, 0, 0⟩ := by
  have hcounted : Reaches (Machine.step? fpu) ⟨m, rs.length, 0⟩ rs ⟨m, 0, 0⟩ := reaches_counted rs m
  unfold Extent.ofLineCount
  split
  next hone => simpa [Machine.skip, Extent.closing, hone] using hcounted
  next htwo => simpa [Machine.skip, Extent.closing, htwo] using hcounted
  next => exact (h m 0).append (.cons (by simp [Machine.step?]) .refl)

theorem step?_header {m : Memory 25} {e : Extent}
    (h : (c.type.isFloat && c.comparison.isOrdered) = false) :
    Machine.step? fpu ⟨m, 0, 0⟩ (header c e) =
      some (if c.holds fpu m then ⟨m, 0, 0⟩ else Machine.skip ⟨m, 0, 0⟩ e) := by
  rw [Machine.step?, if_neg (by simp), if_neg (by simp), Machine.execute?,
    if_neg (header_ne_terminator c e), if_pos (comparisonBits_header_ne c e),
    compare?_header c e fpu _ h]

theorem runs_frame {f : Memory 25 → Memory 25} (hskips : Skips fpu body.lines)
    (hbody : Runs fpu body.lines f) (hwarnings : (frame c body).warnings = []) :
    Runs fpu (frame c body).lines fun m => if c.holds fpu m then f m else m := by
  intro m
  by_cases hempty : body.lines = []
  · have hid : f m = m := by
      have h := hbody m
      rw [hempty] at h
      exact (congrArg Machine.memory (Option.some.inj h)).symm
    rw [(frame_of_empty c hempty).1]
    simp only [hid, ite_self]
    exact .refl
  obtain ⟨hlines, hremarks⟩ := frame_of_lines c hempty
  have horder : (c.type.isFloat && c.comparison.isOrdered) = false := by
    have hnone := (List.append_eq_nil_iff.mp (hremarks.symm.trans hwarnings)).2
    by_contra h
    rw [remarks, if_pos (by simpa using h)] at hnone
    cases hnone
  rw [hlines]
  refine .cons (step?_header c horder) ?_
  by_cases hholds : c.holds fpu m = true
  · simp only [hholds, ite_true]
    exact (hbody m).append (reaches_closing _ _)
  · simp only [hholds]
    exact reaches_skipped hskips m

end Frame

mutual

theorem skips_write : ∀ {p : Patch}, (∀ w ∈ p.writes, w.size < 0x400000) → Skips fpu (write p).lines
  | .write _, h => skips_quiet (quiet_writeData (h _ List.mem_cons_self))
  | .adjust a, _ => skips_quiet (quiet_adjust a)
  | .block _, h | .group _, h => skips_writeAll h
  | .guard c _, h => skips_frame c (skips_writeAll h)

theorem skips_writeAll : ∀ {ps : List Patch}, (∀ w ∈ Patch.allWrites ps, w.size < 0x400000) →
    Skips fpu (writeAll ps).lines
  | [], _ => fun _ _ => .refl
  | _ :: _, h => fun m d =>
    (skips_write (fun w hw => h w (List.mem_append_left _ hw)) m d).append
      (skips_writeAll (fun w hw => h w (List.mem_append_right _ hw)) m d)

end

mutual

theorem runs_write : ∀ {p : Patch}, (∀ w ∈ p.writes, w.size < 0x400000) → (write p).warnings = [] →
    Runs fpu (write p).lines (p.run fpu.reading)
  | .write _, h, _ => runs_writeData (h _ List.mem_cons_self)
  | .adjust _, _, hw => runs_adjust hw
  | .block _, h, hw | .group _, h, hw => runs_writeAll h hw
  | .guard c body, h, hw => by
    have hbody : (writeAll body).warnings = [] := by
      by_cases hempty : (writeAll body).lines = []
      · exact (frame_of_empty c hempty).2.symm.trans hw
      · exact (List.append_eq_nil_iff.mp ((frame_of_lines c hempty).2.symm.trans hw)).1
    exact runs_frame c (skips_writeAll h) (runs_writeAll h hbody) hw

theorem runs_writeAll : ∀ {ps : List Patch}, (∀ w ∈ Patch.allWrites ps, w.size < 0x400000) →
    (writeAll ps).warnings = [] → Runs fpu (writeAll ps).lines (Patch.runAll fpu.reading ps)
  | [], _, _ => fun _ => .refl
  | p :: _, h, hw => fun m => by
    obtain ⟨hfirst, hrest⟩ := List.append_eq_nil_iff.mp hw
    exact (runs_write (fun w hw => h w (List.mem_append_left _ hw)) hfirst m).append
      (runs_writeAll (fun w hw => h w (List.mem_append_right _ hw)) hrest (p.run fpu.reading m))

end

/-- Carrying out the lines of a program leaves the memory that the program leaves, if the writer has
nothing to warn about and no fill can be taken for a terminator. -/
theorem runLines_write (fpu : FloatUnit) (program : List Patch)
    (hsize : ∀ w ∈ Patch.allWrites program, w.size < 0x400000)
    (hwarnings : (Writer.actionReplay.write program).warnings = []) (m : Memory 25) :
    runLines? fpu (Writer.actionReplay.write program).lines m =
      some (Patch.runAll fpu.reading program m) := by
  have hrun : (writeAll program).lines.foldlM (Machine.step? fpu) { memory := m } = some _ :=
    runs_writeAll hsize hwarnings m
  change runLines? fpu ((writeAll program).lines.map Record.render) m = _
  simp only [runLines?, Record.mapM_ofLine?_render, hrun, Option.bind_eq_bind, Option.bind_some]
  rfl

/-- The inner guards cover one line and two, so that the outer one must cover all up to a
terminator. -/
def nestedGuards : List Patch :=
  [.write ⟨0x80001001, [1, 2, 3, 4, 4]⟩,
    .guard ⟨.greaterThan, .s8, 0x80001001, 0xFF⟩
      [.guard ⟨.unequal, .u16, 0x80001002, 0x0203⟩ [.write ⟨0x80001002, [9, 9]⟩],
        .guard ⟨.mask, .u32, 0x80001001, 0x200⟩
          [.adjust ⟨.add, .u16, 0x80001004, 0x1FFFF⟩,
            .group [.adjust ⟨.add, .f32, 0x81FFFFFE, 0x3F800000⟩]]],
    .block [.guard ⟨.equal, .f32, 0x80001001, 0⟩ []]]

theorem runLines_nestedGuards :
    ((∀ w ∈ Patch.allWrites nestedGuards, w.size < 0x400000) ∧
        (Writer.actionReplay.write nestedGuards).warnings = []) ∧
      runLines? ⟨fun x y => x + y, fun x y => x < y⟩ (Writer.actionReplay.write nestedGuards).lines
        (fun _ => 0) =
        some (Patch.runAll (FloatUnit.reading ⟨fun x y => x + y, fun x y => x < y⟩) nestedGuards
          fun _ => 0) := by
  have hsize : ∀ w ∈ Patch.allWrites nestedGuards, w.size < 0x400000 := by decide
  have hwarnings : (Writer.actionReplay.write nestedGuards).warnings = [] := by decide +kernel
  exact ⟨⟨hsize, hwarnings⟩, runLines_write _ nestedGuards hsize hwarnings _⟩

end Simulation

end PatchCode.ActionReplay
