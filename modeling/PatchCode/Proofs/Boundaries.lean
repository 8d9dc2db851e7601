import Mathlib.Tactic
import PatchCode.Proofs.ActionReplayMeaning
import PatchCode.Proofs.GeckoMeaning
import PatchCode.Proofs.Idempotence

/-! Where records that store two or four bytes stand. Those of a plan keep to their natural
boundaries, in both dialects. Action Replay has no codes that change single bits, and the plain
stores that take their place go wherever the change was asked for: so exactly the changes of bits
off their boundaries are written off them. -/

namespace PatchCode

/-- Stores two or four bytes off their natural boundary. -/
def Record.offBoundary (r : Record) : Bool :=
  match (Replay.code r).toNat with
  | 0x02 => (Address.inRecord r.left).toNat % 2 != 0
  | 0x04 => (Address.inRecord r.left).toNat % 4 != 0
  | _ => false

namespace WriteRecord

def offBoundary : WriteRecord → Bool
  | byte .. => false
  | half address .. => address.toNat % 2 != 0
  | word address _ => address.toNat % 4 != 0

theorem offBoundary_of_legal {limits : FillLimits} {r : WriteRecord} (h : r.Legal limits) :
    r.offBoundary = false := by
  cases r with
  | byte => rfl
  | half address _ _ => simpa [offBoundary] using Address.mod_two_eq_zero.mp h.1
  | word address _ => simpa [offBoundary] using Address.mod_four_eq_zero.mp h

end WriteRecord

namespace Record

theorem offBoundary_of_code {r : Record} (h : 0x06 ≤ (Replay.code r).toNat) :
    r.offBoundary = false := by
  unfold offBoundary
  split
  · omega
  · omega
  · rfl

/-- The 25 bits of an address in a record decide its boundaries. -/
theorem offBoundary_codeWord {code : UInt32} (heven : code.toNat % 2 = 0) (hlt : code.toNat < 256)
    (a : Address) (right : UInt32) :
    offBoundary ⟨codeWord code a, right⟩ =
      match code.toNat with
      | 0x02 => a.toNat % 2 != 0
      | 0x04 => a.toNat % 4 != 0
      | _ => false := by
  have hmod : ∀ n, n ∣ 2 ^ 25 → a.inRecord.toNat % n = a.toNat % n := by
    intro n hn
    rw [Address.toNat_inRecord, Nat.mod_mod_of_dvd _ hn]
  rw [offBoundary, Replay.code_codeWord heven hlt, Replay.inRecord_codeWord heven hlt,
    hmod 2 (by decide), hmod 4 (by decide)]

theorem offBoundary_actionReplay (r : WriteRecord) :
    (ActionReplay.ofWriteRecord r).offBoundary = r.offBoundary := by
  cases r <;> exact offBoundary_codeWord (by decide) (by decide) _ _

theorem offBoundary_gecko (r : WriteRecord) :
    (Gecko.ofWriteRecord r).offBoundary = r.offBoundary := by
  cases r <;> exact offBoundary_codeWord (by decide) (by decide) _ _

end Record

namespace Patch

mutual

def adjustments : Patch → List Adjustment
  | adjust adjustment => [adjustment]
  | block body | group body | guard _ body => allAdjustments body
  | write _ => []

def allAdjustments : List Patch → List Adjustment
  | [] => []
  | p :: ps => adjustments p ++ allAdjustments ps

end

end Patch

def Adjustment.straysBits (a : Adjustment) : Bool :=
  a.change != .add && a.address.toNat % a.type.size != 0

namespace ActionReplay

theorem countP_offBoundary_writeData (w : Write) :
    (writeData w).lines.countP Record.offBoundary = 0 := by
  rw [List.countP_eq_zero]
  intro r hr
  obtain ⟨s, hs, rfl⟩ := List.mem_map.mp hr
  have hlegal := (w.plan_planned limits).legal s hs
  simp [Record.offBoundary_actionReplay, WriteRecord.offBoundary_of_legal hlegal.1]

theorem offBoundary_store (type : ValueType) (a : Address) (value : UInt32) :
    (store type a value).offBoundary = (a.toNat % type.size != 0) := by
  rw [store, Record.offBoundary_actionReplay]
  cases type <;> simp [ValueType.size, WriteRecord.offBoundary, Nat.mod_one]

theorem countP_offBoundary_adjust (a : Adjustment) :
    (adjust a).lines.countP Record.offBoundary = [a].countP Adjustment.straysBits := by
  unfold adjust Adjustment.straysBits
  cases h : a.change with
  | add =>
    obtain ⟨heven, hlt, -⟩ := additionCode_fields a.type
    have hcode : 0x06 ≤ (Replay.code (addition a)).toNat := by
      rw [addition, Replay.code_codeWord heven hlt]
      cases a.type <;> decide
    have hadd : (addition a).offBoundary = false := Record.offBoundary_of_code hcode
    simpa [h, addition] using hadd
  | bitSet => simp [h, offBoundary_store, Listing.ofWarning]
  | bitUnset => simp [h, offBoundary_store, Listing.ofWarning]

theorem countP_offBoundary_frame (c : Condition) (body : Listing Record) :
    (frame c body).lines.countP Record.offBoundary = body.lines.countP Record.offBoundary := by
  by_cases hempty : body.lines = []
  · rw [(frame_of_empty c hempty).1, hempty]
  have hheader : ∀ e, (header c e).offBoundary = false := by
    intro e
    apply Record.offBoundary_of_code
    rw [code_header]
    cases c.comparison <;> cases c.type <;> cases e <;> decide
  have hclosing : ∀ e : Extent, e.closing.countP Record.offBoundary = 0 := by
    intro e
    cases e <;> decide
  rw [(frame_of_lines c hempty).1, List.countP_cons_of_neg (by simp [hheader]),
    List.countP_append, hclosing, Nat.add_zero]

mutual

theorem countP_offBoundary_write : ∀ p : Patch,
    (write p).lines.countP Record.offBoundary = p.adjustments.countP Adjustment.straysBits
  | .write w => countP_offBoundary_writeData w
  | .adjust a => countP_offBoundary_adjust a
  | .block body | .group body => countP_offBoundary_writeAll body
  | .guard c body => (countP_offBoundary_frame c _).trans (countP_offBoundary_writeAll body)

theorem countP_offBoundary_writeAll : ∀ ps : List Patch,
    (writeAll ps).lines.countP Record.offBoundary =
      (Patch.allAdjustments ps).countP Adjustment.straysBits
  | [] => rfl
  | p :: ps => by
    rw [writeAll, Listing.lines_append, List.countP_append, countP_offBoundary_write p,
      countP_offBoundary_writeAll ps, Patch.allAdjustments, List.countP_append]

end

end ActionReplay

namespace Gecko

/-- Lines made of records on their natural boundaries and of bulk stores of these writes. -/
inductive Placed (ws : List Write) : List Record → Prop
  | nil : Placed ws []
  | record {r : Record} {rs : List Record} (hplace : r.offBoundary = false)
      (hcode : (Replay.code r).toNat ≠ 0x06) (rest : Placed ws rs) : Placed ws (r :: rs)
  | bulk {w : Write} {rs : List Record} (hw : w ∈ ws) (rest : Placed ws rs) :
      Placed ws (bulk w ++ rs)

/-- The lines that are read as records: the header of a bulk store says how many lines behind it
hold its bytes. -/
def outsideBulk : List Record → List Record
  | [] => []
  | r :: rs =>
    if (Replay.code r).toNat = 0x06 then r :: outsideBulk (rs.drop ((r.right.toNat + 7) / 8))
    else r :: outsideBulk rs
termination_by rs => rs.length
decreasing_by
  all_goals
    simp only [List.length_drop, List.length_cons]
    omega

namespace Placed

variable {ws vs : List Write} {rs ss : List Record}

theorem append (h : Placed ws rs) (h' : Placed ws ss) : Placed ws (rs ++ ss) := by
  induction h with
  | nil => exact h'
  | record hplace hcode _ ih => exact .record hplace hcode ih
  | bulk hw _ ih => rw [List.append_assoc]; exact .bulk hw ih

theorem mono (h : Placed ws rs) (hsub : ws ⊆ vs) : Placed vs rs := by
  induction h with
  | nil => exact .nil
  | record hplace hcode _ ih => exact .record hplace hcode ih
  | bulk hw _ ih => exact .bulk (hsub hw) ih

theorem of_records (h : ∀ r ∈ rs, r.offBoundary = false ∧ (Replay.code r).toNat ≠ 0x06) :
    Placed ws rs := by
  induction rs with
  | nil => exact .nil
  | cons r rs ih =>
    obtain ⟨hplace, hcode⟩ := h r List.mem_cons_self
    exact .record hplace hcode (ih fun s hs => h s (List.mem_cons_of_mem r hs))

theorem outsideBulk (h : Placed ws rs) (hsize : ∀ w ∈ ws, w.size < 2 ^ 32) :
    ∀ r ∈ outsideBulk rs, r.offBoundary = false := by
  induction h with
  | nil => simp [Gecko.outsideBulk]
  | @record r rs hplace hcode _ ih =>
    rw [Gecko.outsideBulk, if_neg hcode]
    exact List.forall_mem_cons.mpr ⟨hplace, ih⟩
  | @bulk w rs hw _ ih =>
    have hcode : (Replay.code ⟨Record.codeWord 0x06 w.address, .ofNat w.size⟩).toNat = 0x06 := by
      rw [Replay.code_codeWord (by decide) (by decide)]
      rfl
    -- The size in the header is that of the payload, so the rows are passed over.
    have hrows : ((UInt32.ofNat w.size).toNat + 7) / 8 =
        ((Bytes.chunks 8 w.bytes).map bulkRow).length := by
      rw [UInt32.toNat_ofNat_of_lt' (hsize w hw), Replay.length_rows]
    rw [Gecko.bulk, List.cons_append, Gecko.outsideBulk, if_pos hcode, hrows, List.drop_left]
    exact List.forall_mem_cons.mpr ⟨Record.offBoundary_of_code hcode.ge, ih⟩

end Placed

theorem placed_writeData (style : Style) (w : Write) : Placed [w] (writeData style w).lines := by
  rcases w.lines_gecko style with hlines | ⟨-, hlines⟩
  · rw [hlines]
    refine .of_records fun r hr => ?_
    obtain ⟨s, hs, rfl⟩ := List.mem_map.mp hr
    have hlegal := (w.plan_planned limits).legal s hs
    have hcode := code_of_write (Replay.request_gecko hlegal.1)
    exact ⟨by rw [Record.offBoundary_gecko, WriteRecord.offBoundary_of_legal hlegal.1], by omega⟩
  · rw [hlines, ← List.append_nil (bulk w)]
    exact .bulk (List.mem_singleton_self w) .nil

theorem placed_of_code {ws : List Write} {rs : List Record}
    (h : ∀ r ∈ rs, 0x06 < (Replay.code r).toNat) :
    Placed ws rs :=
  .of_records fun r hr => ⟨Record.offBoundary_of_code (h r hr).le, (h r hr).ne'⟩

theorem placed_adjust (register : Fin 16) (a : Adjustment) :
    Placed [] (adjust register a).lines := by
  apply placed_of_code
  intro r hr
  simp only [adjust, Listing.lines_ofLines, List.mem_cons, List.not_mem_nil, or_false] at hr
  rcases hr with rfl | rfl | rfl
  · rw [(transfer_fields register a (Or.inl rfl)).1]; decide
  · rw [(operate_fields register a).1]; decide
  · rw [(transfer_fields register a (Or.inr rfl)).1]; decide

theorem placed_frame {ws : List Write} (c : Condition) {body : Listing Record}
    (h : Placed ws body.lines) :
    Placed ws (frame c body).lines := by
  by_cases hempty : body.lines = []
  · rw [frame_of_empty c hempty]
    exact h
  rcases frame_of_lines c hempty with ⟨hlines, -⟩ | ⟨r, hheader, hlines, -⟩
  · rw [hlines]
    exact .nil
  · have hcode := (tests_header hheader).code_ge
    rw [hlines]
    refine .record (Record.offBoundary_of_code (by omega)) (by omega) (h.append (placed_of_code ?_))
    intro s hs
    rw [List.mem_singleton.mp hs]
    decide

mutual

theorem placed_write : ∀ (style : Style) (p : Patch), Placed p.writes (write style p).lines
  | style, .write w => placed_writeData style w
  | style, .adjust a => placed_adjust style.register a
  | style, .block body | style, .group body => placed_writeAll style body
  | style, .guard c body => placed_frame c (placed_writeAll style.inBody body)

theorem placed_writeAll :
    ∀ (style : Style) (ps : List Patch), Placed (Patch.allWrites ps) (writeAll style ps).lines
  | _, [] => .nil
  | style, p :: ps => by
    have hfirst :=
      (placed_write style p).mono (List.subset_append_left p.writes (Patch.allWrites ps))
    have hrest :=
      (placed_writeAll style ps).mono (List.subset_append_right p.writes (Patch.allWrites ps))
    exact hfirst.append hrest

end

end Gecko

/-- Action Replay lines store off a natural boundary exactly for the changes of bits that are off
theirs. Gecko lines never do, where the lines that hold the bytes of a bulk store are left out,
however these are told from the others: by how they were written, or by the sizes in the headers,
which have 32 bits. -/
theorem records_on_boundaries (program : List Patch) :
    (∃ records, (Writer.actionReplay.write program).lines.mapM Record.ofLine? = some records ∧
        records.countP Record.offBoundary =
          (Patch.allAdjustments program).countP Adjustment.straysBits) ∧
      ∀ style, ∃ records, ((Writer.gecko style).write program).lines.mapM Record.ofLine? =
        some records ∧
        Gecko.Placed (Patch.allWrites program) records ∧
        ((∀ w ∈ Patch.allWrites program, w.size < 2 ^ 32) →
          ∀ r ∈ Gecko.outsideBulk records, r.offBoundary = false) := by
  refine ⟨⟨_, Record.mapM_ofLine?_render _, ActionReplay.countP_offBoundary_writeAll program⟩,
    fun style => ?_⟩
  have hplaced := Gecko.placed_writeAll style program
  exact ⟨_, Record.mapM_ofLine?_render _, hplaced, hplaced.outsideBulk⟩

/-- Nine bytes from an odd address on are a bulk store, whose second line looks like a store of four
bytes at an odd address. -/
theorem records_on_boundaries_bulk :
    let bytes : List UInt8 := [0x04, 0x00, 0x00, 0x01, 0x11, 0x22, 0x33, 0x44, 0x55]
    ((Writer.gecko {}).write [.write ⟨1, bytes⟩]).lines =
        ["06000001 00000009", "04000001 11223344", "55000000 00000000"] ∧
      bytes.length < 2 ^ 32 ∧
      ∃ records, ((Writer.gecko {}).write [.write ⟨1, bytes⟩]).lines.mapM Record.ofLine? =
        some records ∧
        ∀ r ∈ Gecko.outsideBulk records, r.offBoundary = false := by
  intro bytes
  obtain ⟨-, hgecko⟩ := records_on_boundaries [.write ⟨1, bytes⟩]
  obtain ⟨records, hread, -, hplaced⟩ := hgecko {}
  refine ⟨by decide +kernel, by decide, records, hread, hplaced ?_⟩
  intro w hw
  rw [List.mem_singleton.mp hw]
  decide

/-- Four bytes are stored from an odd address on. -/
theorem bitSet_off_boundary :
    (Writer.actionReplay.write [.adjust ⟨.bitSet, .u32, 1, 0x11223344⟩]).lines =
      ["04000001 11223344"] ∧
      Record.ofLine? "04000001 11223344" = some ⟨0x04000001, 0x11223344⟩ ∧
      Record.offBoundary ⟨0x04000001, 0x11223344⟩ = true := by
  decide +kernel

end PatchCode
