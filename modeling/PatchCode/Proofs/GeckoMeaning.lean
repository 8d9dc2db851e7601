import Mathlib.Tactic
import PatchCode.Proofs.GeckoComparison
import PatchCode.Proofs.Replay

/-! Gecko lines mean what the program means. Where a conditional does not hold, the lines under it
are passed over one by one, so they must open and close conditionals in pairs; the lines of a bulk
store need not, hence there are none in the body of a guard. -/

namespace PatchCode.Gecko

def Skips (fpu : FloatUnit) (lines : List Record) : Prop :=
  ∀ s : Machine, s.pending = none → s.active = false → Reaches (Machine.step? fpu) s lines s

/-- The lines change memory by `f`, and nothing else but registers. -/
def Runs (fpu : FloatUnit) (lines : List Record) (f : Memory 25 → Memory 25) : Prop :=
  ∀ s : Machine, s.pending = none → s.active = true →
    ∃ registers, Reaches (Machine.step? fpu) s lines { s with memory := f s.memory, registers }

def Silent (l : Listing Record) : Prop := l.warnings = [] ∧ l.errors = []

theorem silent_append {l m : Listing Record} : Silent (l ++ m) ↔ Silent l ∧ Silent m := by
  unfold Silent
  rw [Listing.warnings_append, Listing.errors_append, List.append_eq_nil_iff,
    List.append_eq_nil_iff]
  tauto

section Simulation

variable {fpu : FloatUnit}

theorem Skips.append {rs ss : List Record} (h : Skips fpu rs) (h' : Skips fpu ss) :
    Skips fpu (rs ++ ss) :=
  fun s hpending hactive => (h s hpending hactive).append (h' s hpending hactive)

theorem Runs.append {rs ss : List Record} {f g : Memory 25 → Memory 25} (h : Runs fpu rs f)
    (h' : Runs fpu ss g) :
    Runs fpu (rs ++ ss) fun m => g (f m) := by
  intro s hpending hactive
  obtain ⟨registers, hrs⟩ := h s hpending hactive
  obtain ⟨registers', hss⟩ := h' { s with memory := f s.memory, registers } hpending hactive
  exact ⟨registers', hrs.append hss⟩

theorem runs_nil : Runs fpu [] fun m => m := fun s _ _ => ⟨s.registers, .refl⟩

theorem skips_quiet {rs : List Record} (h : ∀ r ∈ rs, Quiet r) : Skips fpu rs := by
  intro s hpending hactive
  induction rs with
  | nil => exact .refl
  | cons r rs ih =>
    refine .cons ?_ (ih fun r hr => h r (List.mem_cons_of_mem _ hr))
    rw [Machine.step?_of_quiet (h r List.mem_cons_self) hpending, hactive]
    rfl

theorem runs_store {r : Record} {w : Write} (h : Replay.request .gecko r = .write w) :
    Runs fpu [r] fun m => m.store w.address w.bytes := by
  intro s hpending hactive
  have hcode := code_of_write h
  refine ⟨s.registers, .cons ?_ .refl⟩
  rw [Machine.step?_of_quiet (quiet_of_code (by omega) (by omega)) hpending, if_pos hactive,
    Machine.execute?_of_code fpu s (by omega), h]

theorem runs_stores {rs : List Record} {ws : List Write}
    (h : rs.map (Replay.request .gecko) = ws.map .write) :
    Runs fpu rs fun m => m.storeAll ws := by
  induction rs generalizing ws with
  | nil =>
    obtain rfl := List.map_eq_nil_iff.mp h.symm
    exact runs_nil
  | cons r rs ih =>
    obtain ⟨w, vs, rfl, hw, hvs⟩ := List.map_eq_cons_iff.mp h.symm
    exact (runs_store hw.symm).append (ih hvs.symm)

theorem quiet_runLength (w : Write) : ∀ r ∈ runLength w, Quiet r := by
  intro r hr
  have hrequest : Replay.request .gecko r ∈ (w.planned limits).map .write := by
    rw [← w.requests_runLength]
    exact List.mem_map_of_mem hr
  obtain ⟨v, -, hv⟩ := List.mem_map.mp hrequest
  have hcode := code_of_write hv.symm
  exact quiet_of_code (by omega) (by omega)

theorem runs_runLength (w : Write) : Runs fpu (runLength w) fun m => m.store w.address w.bytes := by
  rw [← Memory.storeAll_planned limits w]
  exact runs_stores w.requests_runLength

/-- Lines that belong to a bulk store are taken for its bytes, whatever they look like. -/
theorem reaches_settle (s : Machine) (address : Address) (size : Nat) (rows found : List Record) :
    Reaches (Machine.step? fpu) (s.settle (Replay.settle [] ⟨address, size, rows.length, found⟩))
      rows (s.settle (Replay.settle [] ⟨address, size, 0, rows.reverse ++ found⟩)) := by
  induction rows generalizing found with
  | nil => exact .refl
  | cons r rows ih =>
    rw [List.reverse_cons, List.append_assoc, List.singleton_append]
    refine .cons ?_ (ih (r :: found))
    rw [Replay.settle, if_neg (by simp)]
    rfl

theorem runs_bulk {w : Write} (h : w.size < 2 ^ 32) :
    Runs fpu (bulk w) fun m => m.store w.address w.bytes := by
  intro s hpending hactive
  have hcode : (Replay.code ⟨Record.codeWord 0x06 w.address, .ofNat w.size⟩).toNat = 6 := by
    rw [Replay.code_codeWord (by decide) (by decide)]
    rfl
  have hrows : Reaches (Machine.step? fpu) _ _ _ :=
    reaches_settle s w.address.inRecord w.size ((Bytes.chunks 8 w.bytes).map bulkRow) []
  rw [Replay.length_rows, Replay.settle_rows] at hrows
  have hend : s.settle { done := [⟨w.address.inRecord, w.bytes⟩] } =
      { s with memory := s.memory.store w.address w.bytes } := by
    rw [hpending, ← s.memory.store_inRecord]
    rfl
  rw [hend] at hrows
  refine ⟨s.registers, .cons ?_ hrows⟩
  rw [Machine.step?_of_quiet (quiet_of_code (by omega) (by omega)) hpending, if_pos hactive,
    Machine.execute?_of_code fpu s (by omega), Replay.request_bulk h]

theorem runs_writeData (style : Style) {w : Write} (h : w.size < 2 ^ 32) :
    Runs fpu (writeData style w).lines fun m => m.store w.address w.bytes := by
  rcases w.lines_gecko style with hlines | ⟨-, hlines⟩
  · rw [hlines]; exact runs_runLength w
  · rw [hlines]; exact runs_bulk h

theorem skips_writeData {style : Style} (h : style.bulk = false) (w : Write) :
    Skips fpu (writeData style w).lines := by
  rcases w.lines_gecko style with hlines | ⟨hbulk, -⟩
  · rw [hlines]; exact skips_quiet (quiet_runLength w)
  · rw [h] at hbulk; cases hbulk

theorem runs_adjust (register : Fin 16) (a : Adjustment) :
    Runs fpu (adjust register a).lines (a.apply fpu) := by
  intro s hpending hactive
  have hstep : ∀ r ∈ (adjust register a).lines, ∀ t : Machine, t.pending = none → t.active = true →
      t.step? fpu r = t.execute? fpu r := by
    intro r hr t hpending hactive
    rw [Machine.step?_of_quiet (quiet_adjust register a r hr) hpending, if_pos hactive]
  obtain ⟨y, hy, hbytes⟩ := operate?_operation a fpu (s.memory.load a.type.size a.address)
  let loaded := Function.update s.registers register (s.memory.load a.type.size a.address)
  let operated := Function.update loaded register y
  have hload :=
    (hstep _ (by simp [adjust]) s hpending hactive).trans (execute?_load register a fpu s)
  have hoperate :=
    (hstep _ (by simp [adjust]) { s with registers := loaded } hpending hactive).trans
    (execute?_operate register a fpu _
      ((congrArg (operate? fpu · _ _) (Function.update_self ..)).trans hy))
  have hstore :=
    (hstep _ (by simp [adjust]) { s with registers := operated } hpending hactive).trans
    (execute?_store register a fpu _ (Function.update_self ..))
  rw [hbytes] at hstore
  exact ⟨operated, .cons hload (.cons hoperate (.cons hstore .refl))⟩

section Frame

variable (c : Condition) {body : Listing Record}

theorem frame_of_empty (h : body.lines = []) : frame c body = body := by
  rw [frame, if_pos (by simp [h])]

/-- Either there is no comparison for the condition, or the body stands between a comparison and its
terminator. -/
theorem frame_of_lines (h : body.lines ≠ []) :
    (frame c body).lines = [] ∧ ¬Silent (frame c body) ∨
      ∃ r, header c = .ok r ∧ (frame c body).lines = r :: (body.lines ++ [terminator]) ∧
        (Silent (frame c body) → Silent body ∧ (remarks c).warnings = []) := by
  rw [frame, if_neg (by simpa using h)]
  cases hheader : header c with
  | error refusal =>
    refine Or.inl ⟨rfl, fun hsilent => ?_⟩
    cases (silent_append.mp hsilent).2.2
  | ok r =>
    have hlines : (remarks c).lines = [] := by unfold remarks; split_ifs <;> rfl
    refine Or.inr ⟨r, rfl, by simp [hlines], fun hsilent => ?_⟩
    obtain ⟨hbody, hremarks⟩ := silent_append.mp (silent_append.mp hsilent).1
    exact ⟨hbody, hremarks.1⟩

variable {c}

theorem step?_comparison {r : Record} (h : Tests c r) {s : Machine} (hpending : s.pending = none) :
    s.step? fpu r = some { s with conditions :=
      (s.active && unsigned c.comparison (s.memory.load c.type.size c.address)
        (c.value &&& c.type.mask)) :: s.conditions } := by
  have hne : r ≠ terminator := by
    rintro rfl
    exact absurd h.code_lt (by decide)
  have hcomparison : isComparison r = true := by simp [isComparison, h.code_ge, h.code_lt]
  simp [Machine.step?, hpending, hne, hcomparison, Machine.compare?, h.left_even, h.test?_eq,
    Machine.active]

theorem step?_terminator {s : Machine} (hpending : s.pending = none) :
    s.step? fpu terminator = some { s with conditions := s.conditions.tail } := by
  simp [Machine.step?, hpending]

/-- Up to its terminator, a conditional that does not hold does nothing. -/
theorem Skips.closed {rs : List Record} (h : Skips fpu rs) {s : Machine}
    (hpending : s.pending = none) :
    Reaches (Machine.step? fpu) { s with conditions := false :: s.conditions }
      (rs ++ [terminator]) s := by
  have hskip := h { s with conditions := false :: s.conditions } hpending rfl
  exact hskip.append (.cons (step?_terminator hpending) .refl)

theorem Runs.closed {rs : List Record} {f : Memory 25 → Memory 25} (h : Runs fpu rs f) {s : Machine}
    (hpending : s.pending = none) (hactive : s.active = true) :
    ∃ registers,
      Reaches (Machine.step? fpu) { s with conditions := true :: s.conditions } (rs ++ [terminator])
      { s with memory := f s.memory, registers } := by
  obtain ⟨registers, hrun⟩ := h { s with conditions := true :: s.conditions } hpending hactive
  exact ⟨registers, hrun.append (.cons (step?_terminator hpending) .refl)⟩

theorem skips_frame (hbody : Skips fpu body.lines) : Skips fpu (frame c body).lines := by
  intro s hpending hactive
  by_cases hempty : body.lines = []
  · rw [frame_of_empty c hempty]
    exact hbody s hpending hactive
  rcases frame_of_lines c hempty with ⟨hlines, -⟩ | ⟨r, hheader, hlines, -⟩
  · rw [hlines]
    exact .refl
  have hopen : s.step? fpu r = _ := step?_comparison (tests_header hheader) hpending
  rw [hactive, Bool.false_and] at hopen
  rw [hlines]
  exact .cons hopen (hbody.closed hpending)

theorem runs_frame {f : Memory 25 → Memory 25} (hskips : Skips fpu body.lines)
    (hbody : Silent body → Runs fpu body.lines f) (hsilent : Silent (frame c body)) :
    Runs fpu (frame c body).lines fun m => if c.holds fpu m then f m else m := by
  intro s hpending hactive
  by_cases hempty : body.lines = []
  · -- nothing is written down for the guard, which is right since its body does nothing
    rw [frame_of_empty c hempty] at hsilent ⊢
    obtain ⟨registers, hrun⟩ := hbody hsilent s hpending hactive
    rw [hempty] at hrun ⊢
    have hid : s.memory = f s.memory := congrArg Machine.memory (Option.some.inj hrun)
    simp only [← hid, ite_self]
    exact ⟨s.registers, .refl⟩
  rcases frame_of_lines c hempty with ⟨-, hnoisy⟩ | ⟨r, hheader, hlines, hparts⟩
  · exact absurd hsilent hnoisy
  obtain ⟨hsilent, hremarks⟩ := hparts hsilent
  have hopen : s.step? fpu r = _ := step?_comparison (tests_header hheader) hpending
  rw [hactive, Bool.true_and, unsigned_eq_holds hremarks fpu] at hopen
  rw [hlines]
  cases hholds : c.holds fpu s.memory with
  | true =>
    rw [hholds] at hopen
    obtain ⟨registers, hrun⟩ := (hbody hsilent).closed hpending hactive
    simp only [hholds, if_true]
    exact ⟨registers, .cons hopen hrun⟩
  | false =>
    rw [hholds] at hopen
    simp only [hholds, Bool.false_eq_true, if_false]
    exact ⟨s.registers, .cons hopen (hskips.closed hpending)⟩

end Frame

mutual

theorem skips_write {style : Style} (h : style.bulk = false) :
    ∀ p : Patch, Skips fpu (write style p).lines
  | .write w => skips_writeData h w
  | .adjust a => skips_quiet (quiet_adjust style.register a)
  | .block body | .group body => skips_writeAll h body
  | .guard _ body => skips_frame (skips_writeAll rfl body)

theorem skips_writeAll {style : Style} (h : style.bulk = false) :
    ∀ ps : List Patch, Skips fpu (writeAll style ps).lines
  | [] => fun _ _ _ => .refl
  | p :: ps => (skips_write h p).append (skips_writeAll h ps)

end

mutual

theorem runs_write {style : Style} :
    ∀ {p : Patch}, (∀ w ∈ p.writes, w.size < 2 ^ 32) → Silent (write style p) →
    Runs fpu (write style p).lines (p.run fpu.reading)
  | .write _, h, _ => runs_writeData style (h _ List.mem_cons_self)
  | .adjust a, _, _ => runs_adjust style.register a
  | .block _, h, hsilent | .group _, h, hsilent => runs_writeAll h hsilent
  | .guard _ body, h, hsilent =>
    runs_frame (skips_writeAll rfl body) (fun hbody => runs_writeAll h hbody) hsilent

theorem runs_writeAll {style : Style} :
    ∀ {ps : List Patch}, (∀ w ∈ Patch.allWrites ps, w.size < 2 ^ 32) →
    Silent (writeAll style ps) → Runs fpu (writeAll style ps).lines (Patch.runAll fpu.reading ps)
  | [], _, _ => runs_nil
  | _ :: _, h, hsilent => by
    obtain ⟨hfirst, hrest⟩ := silent_append.mp hsilent
    exact (runs_write (fun w hw => h w (List.mem_append_left _ hw)) hfirst).append
      (runs_writeAll (fun w hw => h w (List.mem_append_right _ hw)) hrest)

end

/-- Carrying out the lines of a program leaves the memory that the program leaves, if the writer
could write down all of it and has nothing to warn about. -/
theorem runLines_gecko (fpu : FloatUnit) (style : Style) (program : List Patch)
    (hsize : ∀ w ∈ Patch.allWrites program, w.size < 2 ^ 32)
    (hwarnings : ((Writer.gecko style).write program).warnings = [])
    (herrors : ((Writer.gecko style).write program).errors = []) (registers : Fin 16 → UInt32)
    (m : Memory 25) :
    runLines? fpu registers ((Writer.gecko style).write program).lines m =
      some (Patch.runAll fpu.reading program m) := by
  have hruns : Runs fpu (writeAll style program).lines _ := runs_writeAll hsize ⟨hwarnings, herrors⟩
  obtain ⟨registers', hrun⟩ := hruns { memory := m, registers } rfl rfl
  change runLines? fpu registers ((writeAll style program).lines.map Record.render) m = _
  rw [Reaches] at hrun
  simp only [runLines?, Record.mapM_ofLine?_render, hrun, Option.bind_eq_bind, Option.bind_some]
  rfl

/-- A bulk store with a line that reads like a terminator, then guards on both bytes of a
halfword. -/
def guardedBytes : List Patch :=
  [.write ⟨0x80001000, [1, 2, 3, 4, 5, 6, 7, 8, 0xE2, 0, 0, 1, 0, 0, 0, 0, 9]⟩,
    .guard ⟨.mask, .u8, 0x80001002, 0x101⟩
      [.adjust ⟨.add, .s16, 0x81FFFFFF, 0xFFFF⟩,
        .guard ⟨.lessThan, .u8, 0x80001003, 5⟩ [.write ⟨0x80001003, [7, 7, 7, 7, 7]⟩],
        .guard ⟨.equal, .f32, 0x80002000, 0⟩ []],
    .adjust ⟨.bitUnset, .u8, 0x80001003, 0x102⟩]

theorem runLines_guardedBytes :
    ((∀ w ∈ Patch.allWrites guardedBytes, w.size < 2 ^ 32) ∧
      ((Writer.gecko {}).write guardedBytes).warnings = [] ∧
        ((Writer.gecko {}).write guardedBytes).errors = []) ∧
      runLines? ⟨fun x y => x + y, fun x y => x < y⟩ (fun _ => 1)
          ((Writer.gecko {}).write guardedBytes).lines (fun _ => 0) =
        some (Patch.runAll (FloatUnit.reading ⟨fun x y => x + y, fun x y => x < y⟩) guardedBytes
          fun _ => 0) := by
  have hsize : ∀ w ∈ Patch.allWrites guardedBytes, w.size < 2 ^ 32 := by decide
  have hwarnings : ((Writer.gecko {}).write guardedBytes).warnings = [] := by decide +kernel
  have herrors : ((Writer.gecko {}).write guardedBytes).errors = [] := by decide +kernel
  exact ⟨⟨hsize, hwarnings, herrors⟩, runLines_gecko _ {} guardedBytes hsize hwarnings herrors _ _⟩

end Simulation

end PatchCode.Gecko
