import Mathlib.Tactic
import PatchCode.Proofs.Requests

/-! Replaying the lines of a write, whichever way it is encoded, makes its byte stores in order. -/

namespace PatchCode

namespace Replay

/-- Reading the lines adds the writes, wherever no bulk store is open. -/
def Replays (dialect : Dialect) (records : List Record) (ws : List Write) : Prop :=
  ∀ done, (records.map Record.render).foldlM (step dialect) { done } =
    .ok { done := ws.reverse ++ done }

theorem Replays.append {dialect : Dialect} {rs ss : List Record} {ws vs : List Write}
    (h : Replays dialect rs ws) (h' : Replays dialect ss vs) :
    Replays dialect (rs ++ ss) (ws ++ vs) := by
  intro done
  rw [List.map_append, List.foldlM_append, h done]
  change List.foldlM (step dialect) _ _ = _
  rw [h', List.reverse_append, List.append_assoc]

theorem Replays.of_requests {dialect : Dialect} {rs : List Record} {ws : List Write}
    (h : rs.map (request dialect) = ws.map .write) : Replays dialect rs ws := by
  induction rs generalizing ws with
  | nil =>
    obtain rfl := List.map_eq_nil_iff.mp h.symm
    exact fun _ => rfl
  | cons r rs ih =>
    obtain ⟨w, vs, rfl, hw, hvs⟩ := List.map_eq_cons_iff.mp h.symm
    have hone : Replays dialect [r] [w] := by
      intro done
      simp only [List.map_cons, List.map_nil, List.foldlM_cons, List.foldlM_nil, step,
        Record.ofLine?_render, ← hw]
      rfl
    exact hone.append (ih hvs.symm)

theorem foldlM_settle (done : List Write) (address : Address) (size : Nat)
    (rows found : List Record) :
    (rows.map Record.render).foldlM (step .gecko)
      (settle done ⟨address, size, rows.length, found⟩) =
      .ok (settle done ⟨address, size, 0, rows.reverse ++ found⟩) := by
  induction rows generalizing found with
  | nil => rfl
  | cons r rows ih =>
    rw [List.map_cons, List.foldlM_cons, settle, if_neg (by simp)]
    simp only [step, Record.ofLine?_render, List.length_cons, Nat.add_sub_cancel]
    refine (ih (r :: found)).trans ?_
    rw [List.reverse_cons, List.append_assoc]
    rfl

theorem ofWord_ofNat {bytes : List UInt8} (h : bytes.length = 4) :
    Bytes.ofWord (.ofNat (Bytes.toNat bytes)) = bytes := by
  have hlt : Bytes.toNat bytes < 2 ^ 32 := by simpa [h] using Bytes.toNat_lt bytes
  rw [Bytes.ofWord, UInt32.toNat_ofNat_of_lt' hlt, ← h, Bytes.ofNat_toNat]

/-- A line of a bulk store spells its bytes, with zeros behind them. -/
theorem rowBytes_bulkRow {bytes : List UInt8} (h : bytes.length ≤ 8) :
    rowBytes (Gecko.bulkRow bytes) = bytes ++ List.replicate (8 - bytes.length) 0 := by
  have hleft : ((bytes.take 4).rightpad 4 0).length = 4 := by simp
  have hright : ((bytes.drop 4).rightpad 4 0).length = 4 := by simp; omega
  rw [rowBytes, Gecko.bulkRow, ofWord_ofNat hleft, ofWord_ofNat hright]
  by_cases hlen : bytes.length ≤ 4
  · rw [List.take_of_length_le hlen, List.drop_of_length_le hlen, List.rightpad, List.rightpad,
      List.nil_append, List.append_assoc, List.replicate_append_replicate]
    congr 2
    simp only [List.length_nil]
    omega
  · have htake : (bytes.take 4).length = 4 := by simp; omega
    rw [List.rightpad, List.rightpad, htake, Nat.sub_self, List.replicate_zero, List.append_nil,
      ← List.append_assoc, List.take_append_drop, List.length_drop]
    congr 2
    omega

theorem length_chunks (bytes : List UInt8) :
    (Bytes.chunks 8 bytes).length = (bytes.length + 7) / 8 := by
  induction h : bytes.length using Nat.strongRecOn generalizing bytes with
  | _ n ih =>
    cases bytes with
    | nil => simp at h; simp [← h]
    | cons b bytes =>
      rw [List.length_cons] at h
      rw [Bytes.chunks_cons, List.length_cons, ih _ (by rw [List.length_drop]; omega) _ rfl,
        List.length_drop]
      omega

/-- The lines of a bulk store spell the payload and then zeros. -/
theorem flatMap_rows (bytes : List UInt8) :
    ∃ k, ((Bytes.chunks 8 bytes).map Gecko.bulkRow).flatMap rowBytes =
      bytes ++ List.replicate k 0 := by
  induction h : bytes.length using Nat.strongRecOn generalizing bytes with
  | _ n ih =>
    cases bytes with
    | nil => exact ⟨0, by simp⟩
    | cons b bytes =>
      rw [List.length_cons] at h
      have hrow : (b :: bytes.take 7).length ≤ 8 := by simp
      obtain ⟨k, hk⟩ := ih _ (by rw [List.length_drop]; omega) (bytes.drop 7) rfl
      rw [Bytes.chunks_cons, List.map_cons, List.flatMap_cons, rowBytes_bulkRow hrow, hk]
      by_cases hlen : 7 ≤ bytes.length
      · -- a full line: no zeros before the rest
        have hfull : (b :: bytes.take 7).length = 8 := by simp; omega
        rw [hfull, Nat.sub_self, List.replicate_zero, List.append_nil]
        refine ⟨k, ?_⟩
        rw [List.cons_append, ← List.append_assoc, List.take_append_drop, List.cons_append]
      · rw [List.take_of_length_le (by omega), List.drop_of_length_le (by omega), List.nil_append,
          List.append_assoc, List.replicate_append_replicate]
        exact ⟨_, rfl⟩

theorem request_bulk {w : Write} (h : w.size < 2 ^ 32) :
    request .gecko ⟨Record.codeWord 0x06 w.address, .ofNat w.size⟩ =
      .bulk w.address.inRecord w.size := by
  have hsize : (UInt32.ofNat w.size).toNat = w.size := UInt32.toNat_ofNat_of_lt' h
  simp only [request, code_codeWord (c := 0x06) (by decide) (by decide),
    inRecord_codeWord (c := 0x06) (by decide) (by decide), hsize]
  rfl

theorem length_rows (w : Write) :
    ((Bytes.chunks 8 w.bytes).map Gecko.bulkRow).length = (w.size + 7) / 8 := by
  rw [List.length_map, length_chunks, Write.size]

/-- With all its lines read, a bulk store stores its payload and none of the zeros. -/
theorem settle_rows (done : List Write) (a : Address) (w : Write) :
    settle done ⟨a, w.size, 0, ((Bytes.chunks 8 w.bytes).map Gecko.bulkRow).reverse ++ []⟩ =
      { done := ⟨a, w.bytes⟩ :: done } := by
  obtain ⟨k, hk⟩ := flatMap_rows w.bytes
  rw [settle, if_pos rfl, List.append_nil, List.reverse_reverse, hk, Write.size, List.take_left]

theorem replays_bulk {w : Write} (h : w.size < 2 ^ 32) :
    Replays .gecko (Gecko.bulk w) [⟨w.address.inRecord, w.bytes⟩] := by
  intro done
  rw [Gecko.bulk, List.map_cons, List.foldlM_cons]
  simp only [step, Record.ofLine?_render, request_bulk h]
  rw [← length_rows]
  refine (foldlM_settle done w.address.inRecord w.size _ []).trans ?_
  rw [settle_rows]
  rfl

def Encodes (dialect : Dialect) (records : List Record) (cells : List (Address × UInt8)) : Prop :=
  ∃ ws, Replays dialect records ws ∧ ws.flatMap Write.cells = cells

theorem Encodes.flatMap {dialect : Dialect} {encode : Write → List Record} {ws : List Write}
    (h : ∀ w ∈ ws, Encodes dialect (encode w) w.cells) :
    Encodes dialect (ws.flatMap encode) (ws.flatMap Write.cells) := by
  induction ws with
  | nil => exact ⟨[], fun _ => rfl, rfl⟩
  | cons w ws ih =>
    obtain ⟨us, hus, hcells⟩ := h w List.mem_cons_self
    obtain ⟨vs, hvs, hcells'⟩ := ih fun v hv => h v (List.mem_cons_of_mem w hv)
    refine ⟨us ++ vs, ?_, ?_⟩
    · rw [List.flatMap_cons]; exact hus.append hvs
    · rw [List.flatMap_append, hcells, hcells', List.flatMap_cons]

end Replay

namespace Gecko

/-- A write is a bulk store where that is allowed and shorter, and fills otherwise. -/
theorem lines_writeData (style : Style) (w : Write) :
    (writeData style w).lines =
      if style.bulk = true ∧ smallWrite < w.size ∧ (bulk w).length < (runLength w).length
        then bulk w
      else runLength w := by
  unfold writeData
  simp only [Bool.and_eq_true, decide_eq_true_eq, ← and_assoc]
  by_cases hallowed : style.bulk = true ∧ smallWrite < w.size
  · simp only [hallowed, and_self, true_and, if_true]
    split_ifs
    · rfl
    · exact List.append_nil _
  · simp only [hallowed, false_and, if_false]

theorem lines_singleton (style : Style) (w : Write) :
    ((Writer.gecko style).write [.write w]).lines =
      (writeData style w).lines.map Record.render := by
  simp [Writer.write, Listing.map, writeAll, write]

end Gecko

namespace Write

theorem encodes_actionReplay (w : Write) :
    Replay.Encodes .actionReplay (ActionReplay.writeData w).lines w.cells :=
  ⟨_, .of_requests w.requests_actionReplay, w.cells_planned _⟩

theorem encodes_runLength (w : Write) : Replay.Encodes .gecko (Gecko.runLength w) w.cells :=
  ⟨_, .of_requests w.requests_runLength, w.cells_planned _⟩

theorem encodes_bulk {w : Write} (h : w.size < 2 ^ 32) :
    Replay.Encodes .gecko (Gecko.bulk w) w.cells :=
  ⟨_, Replay.replays_bulk h, by simpa using cells_inRecord w.address w.bytes⟩

theorem lines_gecko (style : Gecko.Style) (w : Write) :
    (Gecko.writeData style w).lines = Gecko.runLength w ∨
      style.bulk = true ∧ (Gecko.writeData style w).lines = Gecko.bulk w := by
  rw [Gecko.lines_writeData]
  split_ifs with h
  · exact Or.inr ⟨h.1, rfl⟩
  · exact Or.inl rfl

theorem encodes_gecko (style : Gecko.Style) {w : Write} (h : w.size < 2 ^ 32) :
    Replay.Encodes .gecko (Gecko.writeData style w).lines w.cells := by
  rcases w.lines_gecko style with hlines | ⟨-, hlines⟩
  · rw [hlines]; exact w.encodes_runLength
  · rw [hlines]; exact encodes_bulk h

end Write

namespace Image

/-- The image after storing byte `i` of each write at its address plus `i`, modulo the size of
memory, one write after the other. -/
def stored (writes : List Write) : Image :=
  writes.foldl (fun image w => w.bytes.zipIdx.foldl (fun image (b, i) =>
    image.insert (.ofNat ((w.address.toNat + i) % 2 ^ 25)) b) image) ∅

def insertAll (image : Image) (cells : List (Address × UInt8)) : Image :=
  cells.foldl (fun image (a, b) => image.insert a b) image

theorem store_eq_insertAll (image : Image) (a : Address) (bytes : List UInt8) :
    image.store a bytes = image.insertAll (Write.cells ⟨a, bytes⟩) := by
  induction bytes generalizing image a with
  | nil => rfl
  | cons b bytes ih => rw [store, ih]; rfl

theorem ofWrites_eq_insertAll (ws : List Write) :
    ofWrites ws = insertAll ∅ (ws.flatMap Write.cells) := by
  unfold ofWrites
  generalize (∅ : Image) = image
  induction ws generalizing image with
  | nil => rfl
  | cons w ws ih =>
    rw [List.foldl_cons, ih, List.flatMap_cons, store_eq_insertAll, insertAll, insertAll, insertAll,
      List.foldl_append]

theorem zipIdx_eq_insertAll (a : Address) (bytes : List UInt8) (k : Nat) (image : Image) :
    (bytes.zipIdx k).foldl (fun image (b, i) =>
      image.insert (.ofNat ((a.toNat + i) % 2 ^ 25)) b) image =
      image.insertAll (Write.cells ⟨a.advance k, bytes⟩) := by
  induction bytes generalizing k image with
  | nil => rfl
  | cons b bytes ih =>
    have hcell : UInt32.ofNat ((a.toNat + k) % 2 ^ 25) = (a.advance k).inRecord := by
      apply UInt32.toNat_inj.mp
      simp only [Address.toNat_inRecord, Address.toNat_advance, UInt32.toNat_ofNat']
      omega
    have hnext : a.advance k + 1 = a.advance (k + 1) := by
      rw [Address.advance_succ, Address.advance_add]
    rw [List.zipIdx_cons, List.foldl_cons, ih (k + 1), ← hnext]
    simp only [hcell]
    rfl

theorem stored_eq_insertAll (ws : List Write) :
    stored ws = insertAll ∅ (ws.flatMap Write.cells) := by
  unfold stored
  generalize (∅ : Image) = image
  induction ws generalizing image with
  | nil => rfl
  | cons w ws ih =>
    rw [List.foldl_cons, ih, List.flatMap_cons, zipIdx_eq_insertAll, Address.advance_zero,
      insertAll, insertAll, insertAll, List.foldl_append]

end Image

theorem Replay.Encodes.replay {dialect : Dialect} (hd : dialect ≠ .bytes) {records : List Record}
    {cells : List (Address × UInt8)} (h : Encodes dialect records cells) :
    PatchCode.replay dialect (records.map Record.render) = .ok (Image.insertAll ∅ cells) := by
  obtain ⟨ws, hws, rfl⟩ := h
  have hwrites : writes dialect (records.map Record.render) = .ok ws := by
    rw [writes, if_neg hd, hws []]
    simp [Except.bind, finish]
  rw [PatchCode.replay, hwrites, ← Image.ofWrites_eq_insertAll]
  rfl

end PatchCode
