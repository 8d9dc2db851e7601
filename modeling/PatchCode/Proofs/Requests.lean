import Mathlib.Tactic
import PatchCode.Memory.Replay
import PatchCode.Proofs.Codec
import PatchCode.Proofs.Plan

/-! The records of a plan, as both dialects write them down, ask for the stores that the plan makes.
Only the low 25 bits of an address count in a record. -/

namespace PatchCode

/-- The byte stores of a write as code records see them. -/
def Write.cells (w : Write) : List (Address × UInt8) := w.stores.map fun (a, b) => (a.inRecord, b)

theorem Write.cells_congr {a a' : Address} (h : a.inRecord = a'.inRecord) (bytes : List UInt8) :
    Write.cells ⟨a, bytes⟩ = Write.cells ⟨a', bytes⟩ := by
  unfold Write.cells Write.stores
  induction bytes generalizing a a' with
  | nil => rfl
  | cons b bytes ih =>
    simp only [Write.storesFrom, List.map_cons, h, ih (Address.inRecord_succ h)]

theorem Write.cells_inRecord (a : Address) (bytes : List UInt8) :
    Write.cells ⟨a.inRecord, bytes⟩ = Write.cells ⟨a, bytes⟩ :=
  Write.cells_congr a.inRecord_inRecord bytes

namespace Replay

/-- A fill whose word holds a count above a value of `width` bytes; `total` is how the dialect
counts. -/
theorem fill_packed (a : Address) (total : Nat → Nat) (width shift field value : Nat)
    (hsum : field * shift + value < 2 ^ 32) (hvalue : value < shift)
    (hshift : 256 ^ width ∣ shift) :
    fill a (Bytes.ofNat width (UInt32.ofNat (field * shift + value)).toNat)
        (total ((UInt32.ofNat (field * shift + value)).toNat / shift)) =
      .write ⟨a, (List.replicate (total field) (Bytes.ofNat width value)).flatten⟩ := by
  have hdiv : (field * shift + value) / shift = field := by
    rw [mul_comm, Nat.mul_add_div (by omega), Nat.div_eq_of_lt hvalue, add_zero]
  have hlow : Bytes.ofNat width (field * shift + value) = Bytes.ofNat width value := by
    apply Bytes.ofNat_congr
    obtain ⟨k, rfl⟩ := hshift
    rw [mul_left_comm]
    simp [Nat.ModEq]
  rw [UInt32.toNat_ofNat_of_lt' hsum, hdiv, hlow, fill]

theorem flatten_replicate_byte (b : UInt8) (count : Nat) :
    (List.replicate count (Bytes.ofNat 1 b.toNat)).flatten = List.replicate count b := by
  simp [Bytes.ofNat]

theorem request_word (dialect : Dialect) (a : Address) (value : UInt32) :
    request dialect ⟨Record.codeWord 0x04 a, value⟩ =
      .write ⟨a.inRecord, Bytes.ofNat 4 value.toNat⟩ := by
  simp only [request, code_codeWord (c := 0x04) (by decide) (by decide),
    inRecord_codeWord (c := 0x04) (by decide) (by decide)]
  simp [fill, Bytes.ofWord]

theorem max_countField {count : Nat} (h : 0 < count) :
    max 1 (ActionReplay.countField count) = count := by
  unfold ActionReplay.countField
  split_ifs <;> omega

theorem countField_le (count : Nat) : ActionReplay.countField count ≤ count := by
  unfold ActionReplay.countField
  split_ifs <;> omega

theorem request_actionReplay {r : WriteRecord} (h : r.Legal ActionReplay.limits) :
    request .actionReplay (ActionReplay.ofWriteRecord r) =
      .write ⟨r.address.inRecord, r.bytes⟩ := by
  cases r with
  | byte address value count =>
    obtain ⟨hpos, hmax : count ≤ 0xFFFFFF⟩ := h
    have hle := countField_le count
    have hv := value.toNat_lt
    simp only [ActionReplay.ofWriteRecord, request,
      code_codeWord (c := 0x00) (by decide) (by decide),
      inRecord_codeWord (c := 0x00) (by decide) (by decide)]
    refine (fill_packed _ (max 1) 1 0x100 _ _ (by omega) (by omega) (by decide)).trans ?_
    rw [max_countField hpos, flatten_replicate_byte]
    rfl
  | half address value count =>
    obtain ⟨_, hpos, hmax : count ≤ 0xFFFF⟩ := h
    have hle := countField_le count
    have hv := value.toNat_lt
    simp only [ActionReplay.ofWriteRecord, request,
      code_codeWord (c := 0x02) (by decide) (by decide),
      inRecord_codeWord (c := 0x02) (by decide) (by decide)]
    refine (fill_packed _ (max 1) 2 0x10000 _ _ (by omega) (by omega) (by decide)).trans ?_
    rw [max_countField hpos]
    rfl
  | word address value => exact request_word .actionReplay address value

theorem request_gecko {r : WriteRecord} (h : r.Legal Gecko.limits) :
    request .gecko (Gecko.ofWriteRecord r) = .write ⟨r.address.inRecord, r.bytes⟩ := by
  cases r with
  | byte address value count =>
    obtain ⟨hpos, hmax : count ≤ 0x10000⟩ := h
    have hv := value.toNat_lt
    simp only [Gecko.ofWriteRecord, request, code_codeWord (c := 0x00) (by decide) (by decide),
      inRecord_codeWord (c := 0x00) (by decide) (by decide)]
    refine (fill_packed _ (· + 1) 1 0x10000 _ _ (by omega) (by omega) (by decide)).trans ?_
    rw [Nat.sub_add_cancel hpos, flatten_replicate_byte]
    rfl
  | half address value count =>
    obtain ⟨_, hpos, hmax : count ≤ 0x10000⟩ := h
    have hv := value.toNat_lt
    simp only [Gecko.ofWriteRecord, request, code_codeWord (c := 0x02) (by decide) (by decide),
      inRecord_codeWord (c := 0x02) (by decide) (by decide)]
    refine (fill_packed _ (· + 1) 2 0x10000 _ _ (by omega) (by omega) (by decide)).trans ?_
    rw [Nat.sub_add_cancel hpos]
    rfl
  | word address value => exact request_word .gecko address value

end Replay

namespace Write

def planned (limits : FillLimits) (w : Write) : List Write :=
  (w.plan limits).map fun r => ⟨r.address.inRecord, r.bytes⟩

theorem cells_planned (limits : FillLimits) (w : Write) :
    (w.planned limits).flatMap cells = w.cells := by
  have hstores := (w.plan_planned limits).stores
  have hrecord : ∀ r : WriteRecord, cells ⟨r.address.inRecord, r.bytes⟩ =
      cells ⟨r.address, r.bytes⟩ :=
    fun r => cells_inRecord r.address r.bytes
  rw [planned, List.flatMap_map]
  simp only [hrecord]
  rw [cells, stores, ← hstores, List.map_flatMap]
  rfl

theorem requests_actionReplay (w : Write) :
    (ActionReplay.writeData w).lines.map (Replay.request .actionReplay) =
      (w.planned ActionReplay.limits).map .write := by
  have hlegal := (w.plan_planned ActionReplay.limits).legal
  simp only [ActionReplay.writeData, planned, List.map_map]
  exact List.map_congr_left fun r hr => Replay.request_actionReplay (hlegal r hr).1

theorem requests_runLength (w : Write) :
    (Gecko.runLength w).map (Replay.request .gecko) = (w.planned Gecko.limits).map .write := by
  have hlegal := (w.plan_planned Gecko.limits).legal
  simp only [Gecko.runLength, planned, List.map_map]
  exact List.map_congr_left fun r hr => Replay.request_gecko (hlegal r hr).1

end Write

end PatchCode
