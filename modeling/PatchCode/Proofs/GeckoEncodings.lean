import Mathlib.Tactic
import PatchCode.Proofs.Replay

/-! The two ways to write a write as Gecko codes. Fills and a bulk store leave the same memory
behind, the one that holds at each place the last byte of the write that goes there, so the writer
may choose by the number of lines alone. -/

namespace PatchCode

namespace Write

/-- The byte goes to this place of a memory of `2 ^ 25` bytes, and no byte behind it in the write
does. -/
def LeavesAt (w : Write) (place : Address) (value : UInt8) : Prop :=
  ∃ i, w.bytes[i]? = some value ∧ (w.address.toNat + i) % 2 ^ 25 = place.toNat ∧
    ∀ j, i < j → j < w.size → (w.address.toNat + j) % 2 ^ 25 ≠ place.toNat

section

variable {a place : Address} {bytes : List UInt8} {b value : UInt8}

theorem leavesAt_concat_self (h : (a.toNat + bytes.length) % 2 ^ 25 = place.toNat) :
    LeavesAt ⟨a, bytes ++ [b]⟩ place value ↔ b = value := by
  constructor
  · rintro ⟨i, hi, -, hlast⟩
    obtain ⟨hlt, -⟩ := List.getElem?_eq_some_iff.mp hi
    rw [List.length_append, List.length_singleton] at hlt
    -- A byte in front of the last would not be the last one for the place.
    have hlen : i = bytes.length := by
      by_contra hne
      exact hlast bytes.length (by omega) (by simp [size]) h
    simpa [hlen] using hi
  · rintro rfl
    refine ⟨bytes.length, by simp, h, fun j hj hlt => ?_⟩
    simp only [size, List.length_append, List.length_singleton] at hlt
    omega

theorem leavesAt_concat_of_ne (h : (a.toNat + bytes.length) % 2 ^ 25 ≠ place.toNat) :
    LeavesAt ⟨a, bytes ++ [b]⟩ place value ↔ LeavesAt ⟨a, bytes⟩ place value := by
  constructor
  · rintro ⟨i, hi, hplace, hlast⟩
    obtain ⟨hlt, -⟩ := List.getElem?_eq_some_iff.mp hi
    rw [List.length_append, List.length_singleton] at hlt
    have hne : i ≠ bytes.length := by rintro rfl; exact h hplace
    rw [List.getElem?_append_left (by omega)] at hi
    refine ⟨i, hi, hplace, fun j hj hsize => hlast j hj ?_⟩
    simp only [size, List.length_append, List.length_singleton] at hsize ⊢
    omega
  · rintro ⟨i, hi, hplace, hlast⟩
    obtain ⟨hlt, -⟩ := List.getElem?_eq_some_iff.mp hi
    refine ⟨i, by rwa [List.getElem?_append_left hlt], hplace, fun j hj hsize => ?_⟩
    rcases eq_or_ne j bytes.length with rfl | hne
    · exact h
    · simp only [size, List.length_append, List.length_singleton] at hsize
      exact hlast j hj (by simp only [size]; omega)

end

end Write

namespace Image

theorem store_concat (image : Image) (a : Address) (bytes : List UInt8) (b : UInt8) :
    image.store a (bytes ++ [b]) =
      (image.store a bytes).insert (a.advance bytes.length).inRecord b := by
  induction bytes generalizing image a with
  | nil => rw [List.nil_append, store, store, store, List.length_nil, Address.advance_zero]
  | cons c bytes ih =>
    rw [List.cons_append, store, ih, store, List.length_cons, Address.advance_succ]

/-- The image of a write holds at each place the last byte that goes there. -/
theorem getElem?_ofWrites (w : Write) (place : Address) (value : UInt8) :
    (ofWrites [w])[place]? = some value ↔ w.LeavesAt place value := by
  obtain ⟨a, bytes⟩ := w
  change (store ∅ a bytes)[place]? = some value ↔ _
  induction bytes using List.reverseRecOn with
  | nil => simp [store, Write.LeavesAt]
  | append_singleton bytes b ih =>
    have hplace : (a.advance bytes.length).inRecord = place ↔
        (a.toNat + bytes.length) % 2 ^ 25 = place.toNat := by
      rw [← UInt32.toNat_inj, Address.toNat_inRecord, Address.toNat_advance]
      omega
    rw [store_concat, Std.ExtTreeMap.getElem?_insert]
    simp only [Std.compare_eq_iff_eq, hplace]
    split_ifs with h
    · rw [Write.leavesAt_concat_self h, Option.some.injEq]
    · rw [Write.leavesAt_concat_of_ne h, ih]

end Image

namespace Gecko

def fillLines (w : Write) : List String := (runLength w).map Record.render

def bulkLines (w : Write) : List String := (bulk w).map Record.render

/-- The lines that the writer chooses for a write outside guards. -/
def chosenLines (register : Fin 16) (w : Write) : List String :=
  ((Writer.gecko { register }).write [.write w]).lines

theorem replay_fillLines (w : Write) : replay .gecko (fillLines w) = .ok (.ofWrites [w]) := by
  rw [fillLines, w.encodes_runLength.replay (by decide), Image.ofWrites_eq_insertAll,
    List.flatMap_singleton]

theorem replay_bulkLines {w : Write} (h : w.size < 2 ^ 32) :
    replay .gecko (bulkLines w) = .ok (.ofWrites [w]) := by
  rw [bulkLines, (Write.encodes_bulk h).replay (by decide), Image.ofWrites_eq_insertAll,
    List.flatMap_singleton]

theorem chosenLines_eq (register : Fin 16) {w : Write} (h : 4 < w.size) :
    chosenLines register w =
      if (bulkLines w).length < (fillLines w).length then bulkLines w else fillLines w := by
  have hsmall : smallWrite < w.size := h
  rw [chosenLines, lines_singleton, lines_writeData, fillLines, bulkLines, List.length_map,
    List.length_map]
  simp only [hsmall, true_and]
  split_ifs <;> rfl

/-- Fills and a bulk store leave the memory of the write itself, and of a write above four bytes the
writer takes the shorter encoding, the fills if both have the same number of lines. -/
theorem replay_encodings (w : Write) (hsize : w.size < 2 ^ 32) (register : Fin 16) :
    replay .gecko (fillLines w) = .ok (.ofWrites [w]) ∧
      replay .gecko (bulkLines w) = .ok (.ofWrites [w]) ∧
      (∀ place value, (Image.ofWrites [w])[place]? = some value ↔ w.LeavesAt place value) ∧
      (4 < w.size →
        (chosenLines register w = fillLines w ∨ chosenLines register w = bulkLines w) ∧
        (chosenLines register w).length = min (fillLines w).length (bulkLines w).length ∧
        ((fillLines w).length = (bulkLines w).length → chosenLines register w = fillLines w)) := by
  refine ⟨replay_fillLines w, replay_bulkLines hsize, Image.getElem?_ofWrites w, fun hlarge => ?_⟩
  rw [chosenLines_eq register hlarge]
  split_ifs with hshort
  · exact ⟨.inr rfl, (min_eq_right hshort.le).symm, fun htie => by omega⟩
  · exact ⟨.inl rfl, (min_eq_left (not_lt.mp hshort)).symm, fun _ => rfl⟩

def wrappedWrite : Write := ⟨0x81FFFFFD, [1, 2, 3, 4, 5, 6, 7, 8, 9]⟩

theorem replay_wrappedWrite :
    (wrappedWrite.size < 2 ^ 32 ∧ 4 < wrappedWrite.size) ∧
      (fillLines wrappedWrite).length = 4 ∧ (bulkLines wrappedWrite).length = 3 ∧
      replay .gecko (fillLines wrappedWrite) = replay .gecko (bulkLines wrappedWrite) ∧
      (Image.ofWrites [wrappedWrite])[(0 : Address)]? = some 4 ∧
      (chosenLines 3 wrappedWrite).length = min 4 3 := by
  have hfills : (fillLines wrappedWrite).length = 4 := by decide +kernel
  have hbulk : (bulkLines wrappedWrite).length = 3 := by decide +kernel
  obtain ⟨hreplay, hreplay', himage, hchoice⟩ := replay_encodings wrappedWrite (by decide) 3
  have hlines := (hchoice (by decide)).2.1
  rw [hfills, hbulk] at hlines
  refine ⟨by decide, hfills, hbulk, hreplay.trans hreplay'.symm, (himage 0 4).mpr ⟨3, rfl, rfl, ?_⟩,
    hlines⟩
  intro j hj hlt
  change j < 9 at hlt
  change (0x81FFFFFD + j) % 2 ^ 25 ≠ 0
  omega

end Gecko

end PatchCode
