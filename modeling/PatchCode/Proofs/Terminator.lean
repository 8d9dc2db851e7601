import Mathlib.Tactic
import PatchCode.Proofs.ActionReplayMeaning

/-! Where the terminator stands among Action Replay lines. Every guard over all lines ends in one,
and no adjustment is written as one; but a byte fill has the same type, and a fill of `0x400000`
zeros from address zero on is spelled like it. -/

namespace PatchCode.ActionReplay

def spellsTerminator : WriteRecord → Bool
  | .byte address value count => address.inRecord == 0 && value == 0 && count == 0x400000
  | .half .. | .word .. => false

theorem ofWriteRecord_eq_terminator_iff {r : WriteRecord} (h : r.Legal limits) :
    ofWriteRecord r = terminator ↔ spellsTerminator r = true := by
  cases r with
  | byte address value count =>
    have hv := value.toNat_lt
    have hcount : count ≤ 0xFFFFFF := h.2
    have hfield := Replay.countField_le count
    have hleft : Record.codeWord 0x00 address = 0 ↔ address.inRecord = 0 := by
      rw [← UInt32.toNat_inj, ← UInt32.toNat_inj, Record.toNat_codeWord (by decide) (by decide),
        Address.toNat_inRecord]
      simp
    have hright : UInt32.ofNat (countField count * 0x100 + value.toNat) = 0x40000000 ↔
        value = 0 ∧ count = 0x400000 := by
      rw [← UInt32.toNat_inj, ← UInt8.toNat_inj,
        UInt32.toNat_ofNat_of_lt' (show _ < 2 ^ 32 by omega)]
      change _ = 0x40000000 ↔ _ = 0 ∧ _
      unfold countField
      split_ifs <;> omega
    simp only [ofWriteRecord, terminator, Record.mk.injEq, hleft, hright, spellsTerminator,
      Bool.and_eq_true, beq_iff_eq, and_assoc]
  | half address value count =>
    have hcount : count ≤ 0xFFFF := h.2.2
    have hsize : (WriteRecord.half address value count).size < 0x400000 := by
      simp only [WriteRecord.size]; omega
    simp [spellsTerminator, ofWriteRecord_ne_terminator hsize]
  | word address value =>
    have hsize : (WriteRecord.word address value).size < 0x400000 := by
      simp only [WriteRecord.size]; decide
    simp [spellsTerminator, ofWriteRecord_ne_terminator hsize]

theorem count_terminator_writeData (w : Write) :
    (writeData w).lines.count terminator = (w.plan limits).countP spellsTerminator := by
  have hlegal := (w.plan_planned limits).legal
  change ((w.plan limits).map ofWriteRecord).count terminator = _
  rw [List.count_eq_countP, List.countP_map]
  refine List.countP_congr fun r hr => ?_
  rw [Function.comp_apply, beq_iff_eq]
  exact ofWriteRecord_eq_terminator_iff (hlegal r hr).1

theorem terminator_notMem_adjust (a : Adjustment) : terminator ∉ (adjust a).lines :=
  fun h => (quiet_adjust a terminator h).1 rfl

theorem count_terminator_closing : ∀ {n : Nat}, 0 < n →
    (Extent.ofLineCount n).closing.count terminator = if 3 ≤ n then 1 else 0
  | 1, _ | 2, _ => rfl
  | n + 3, _ => by rw [if_pos (by omega)]; rfl

theorem count_terminator_frame (c : Condition) (body : Listing Record) :
    (frame c body).lines.count terminator =
      (if 3 ≤ body.lines.length then 1 else 0) + body.lines.count terminator := by
  by_cases hempty : body.lines = []
  · rw [(frame_of_empty c hempty).1, hempty]
    rfl
  rw [(frame_of_lines c hempty).1, List.count_cons_of_ne (header_ne_terminator c _),
    List.count_append, count_terminator_closing (List.length_pos_of_ne_nil hempty), Nat.add_comm]

mutual

/-- How many guards at or below this patch cover all lines up to a terminator. -/
def allLinesGuards : Patch → Nat
  | .write _ | .adjust _ => 0
  | .block body | .group body => allLinesGuardsIn body
  | .guard _ body => (if 3 ≤ (writeAll body).lines.length then 1 else 0) + allLinesGuardsIn body

def allLinesGuardsIn : List Patch → Nat
  | [] => 0
  | p :: ps => allLinesGuards p + allLinesGuardsIn ps

end

def terminatorFills (ws : List Write) : Nat := (ws.flatMap (·.plan limits)).countP spellsTerminator

theorem terminatorFills_append (vs ws : List Write) :
    terminatorFills (vs ++ ws) = terminatorFills vs + terminatorFills ws := by
  rw [terminatorFills, List.flatMap_append, List.countP_append]
  rfl

mutual

theorem count_terminator_write : ∀ p : Patch,
    (write p).lines.count terminator = allLinesGuards p + terminatorFills p.writes
  | .write w => by
    rw [write, count_terminator_writeData, allLinesGuards, Nat.zero_add, Patch.writes,
      terminatorFills]
    simp
  | .adjust a => List.count_eq_zero_of_not_mem (terminator_notMem_adjust a)
  | .block body | .group body => count_terminator_writeAll body
  | .guard c body => by
    rw [write, count_terminator_frame, count_terminator_writeAll body, allLinesGuards, Patch.writes,
      Nat.add_assoc]

theorem count_terminator_writeAll : ∀ ps : List Patch,
    (writeAll ps).lines.count terminator =
      allLinesGuardsIn ps + terminatorFills (Patch.allWrites ps)
  | [] => rfl
  | p :: ps => by
    rw [writeAll, Listing.lines_append, List.count_append, count_terminator_write p,
      count_terminator_writeAll ps, allLinesGuardsIn, Patch.allWrites, terminatorFills_append]
    omega

end

/-- Among the lines of a program the terminator stands once for each guard over all lines and once
for each fill that is spelled like it. The lines of an adjustment never hold it, and those of a
write only for such a fill, which takes `0x400000` bytes or more. -/
theorem count_terminator_lines (program : List Patch) :
    (Writer.actionReplay.write program).lines.count "00000000 40000000" =
        allLinesGuardsIn program + terminatorFills (Patch.allWrites program) ∧
      (∀ a : Adjustment, "00000000 40000000" ∉ (Writer.actionReplay.write [.adjust a]).lines) ∧
      (∀ w : Write, "00000000 40000000" ∈ (Writer.actionReplay.write [.write w]).lines ↔
        0 < terminatorFills [w]) ∧
      ∀ w : Write, w.size < 0x400000 → terminatorFills [w] = 0 := by
  have hcount : ∀ program, (Writer.actionReplay.write program).lines.count "00000000 40000000" =
      allLinesGuardsIn program + terminatorFills (Patch.allWrites program) := by
    intro program
    have hrender : terminator.render = "00000000 40000000" := by decide +kernel
    change ((writeAll program).lines.map Record.render).count _ = _
    rw [← hrender, List.count_map_of_injective _ _ Record.render_injective,
      count_terminator_writeAll]
  refine ⟨hcount program, ?_, ?_, ?_⟩
  · intro a
    rw [← List.count_eq_zero, hcount]
    rfl
  · intro w
    rw [← List.count_pos_iff, hcount]
    simp [allLinesGuardsIn, allLinesGuards, Patch.allWrites, Patch.writes]
  · intro w hsize
    rw [terminatorFills, List.countP_eq_zero]
    intro r hr
    have hr : r ∈ w.plan limits := by simpa using hr
    have hlegal := (Plan.planned_plan limits w.address w.bytes).legal r hr
    rw [← ofWriteRecord_eq_terminator_iff hlegal.1]
    exact ofWriteRecord_ne_terminator (lt_of_le_of_lt hlegal.2 hsize)

/-- Equal bytes from a word boundary on make one fill, if they fill whole words. -/
theorem plan_replicate {n : Nat} (hfour : n % 4 = 0) (hpos : 4 < n) (hn : n ≤ 0xFFFFFF)
    (value : UInt8) :
    plan limits 0 (List.replicate n value) = [.byte 0 value n] := by
  obtain ⟨m, rfl⟩ : ∃ m, n = m + 4 := ⟨n - 4, by omega⟩
  have hlist : List.replicate (m + 4) value =
      value :: value :: value :: value :: List.replicate m value := rfl
  have hfill : Plan.byteFill limits value (value :: value :: value :: List.replicate m value) =
      m + 4 := by
    simp only [Plan.byteFill, Plan.wholeWords, limits, List.takeWhile_cons,
      List.takeWhile_replicate, beq_self_eq_true, ite_true, List.length_cons, List.length_replicate]
    rw [if_pos (by omega)]
    omega
  have hnext : Plan.next limits 0 value (value :: value :: value :: List.replicate m value) =
      .byte 0 value (m + 4) := by
    simp [Plan.next, Plan.body, Plan.atWord, hfill]
  rw [hlist, Plan.plan_cons, hnext, ← hlist]
  simp [WriteRecord.size]

def guardedWith (w : Write) : List Patch :=
  [.guard ⟨.equal, .u8, 0x100, 1⟩ [.write w, .write ⟨0x500000, [1]⟩, .write ⟨0x500010, [2]⟩]]

/-- Few zeros are no fill that is spelled like the terminator, which then stands once, at the end of
the guard. -/
theorem count_terminator_fewZeros :
    Write.size ⟨0, [0, 0, 0, 0, 0, 0, 0, 0]⟩ < 0x400000 ∧
    terminatorFills [⟨0, [0, 0, 0, 0, 0, 0, 0, 0]⟩] = 0 ∧
      (Writer.actionReplay.write (guardedWith ⟨0, [0, 0, 0, 0, 0, 0, 0, 0]⟩)).lines.count
        "00000000 40000000" = 1 := by
  have hsize : Write.size ⟨0, [0, 0, 0, 0, 0, 0, 0, 0]⟩ < 0x400000 := by decide
  obtain ⟨hcount, -, -, hsmall⟩ :=
    count_terminator_lines (guardedWith ⟨0, [0, 0, 0, 0, 0, 0, 0, 0]⟩)
  refine ⟨hsize, hsmall _ hsize, ?_⟩
  rw [hcount]
  decide +kernel

theorem lines_guardedWith {w : Write} (hw : (writeData w).lines = [terminator]) :
    (Writer.actionReplay.write (guardedWith w)).lines =
        ["88000100 00000001", "00000000 40000000", "00500000 00000001", "00500010 00000002",
          "00000000 40000000"] ∧
      allLinesGuardsIn (guardedWith w) = 1 := by
  have hbody : (writeAll [.write w, .write ⟨0x500000, [1]⟩, .write ⟨0x500010, [2]⟩]).lines =
      [terminator, ⟨0x00500000, 1⟩, ⟨0x00500010, 2⟩] := by
    simp only [writeAll, write, Listing.lines_append, hw]
    decide +kernel
  have hframe :=
    (frame_of_lines ⟨.equal, .u8, 0x100, 1⟩ (by rw [hbody]; exact List.cons_ne_nil _ _)).1
  rw [hbody] at hframe
  constructor
  · change ((frame _ _).lines ++ []).map Record.render = _
    rw [List.append_nil, hframe]
    decide +kernel
  · simp only [guardedWith, allLinesGuardsIn, allLinesGuards, hbody]
    decide

/-- One guard covers all lines, but its terminator stands twice: the fill ends the guard before the
two bytes that it should cover. -/
theorem terminator_before_guard_ends :
    (Writer.actionReplay.write (guardedWith ⟨0, List.replicate 0x400000 0⟩)).lines =
        ["88000100 00000001", "00000000 40000000", "00500000 00000001", "00500010 00000002",
          "00000000 40000000"] ∧
      allLinesGuardsIn (guardedWith ⟨0, List.replicate 0x400000 0⟩) = 1 := by
  have hplan : Write.plan ⟨0, List.replicate 0x400000 0⟩ limits = [.byte 0 0 0x400000] :=
    plan_replicate (by decide) (by decide) (by decide) 0
  apply lines_guardedWith
  rw [writeData, hplan]
  decide

end PatchCode.ActionReplay
