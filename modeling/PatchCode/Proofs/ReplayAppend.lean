import Mathlib.Tactic
import PatchCode.Proofs.Replay

/-! Replaying lines one part after the other. A step puts writes in front of those made so far and
looks at none of them, so lines that can be replayed leave nothing behind but their writes. Only a
bulk store that lacks lines is mended by lines that follow. -/

namespace PatchCode

namespace Replay

def State.after (before : List Write) (s : State) : State := { s with done := s.done ++ before }

section

variable (before : List Write)

theorem settle_after (done : List Write) (p : Pending) :
    settle (done ++ before) p = (settle done p).after before := by
  unfold settle
  split_ifs <;> rfl

theorem step_after (dialect : Dialect) (s : State) (line : String) :
    step dialect (s.after before) line = (step dialect s line).map (State.after before) := by
  unfold step
  cases Record.ofLine? line with
  | none => rfl
  | some r =>
    obtain ⟨done, pending⟩ := s
    cases pending with
    | some p => exact congrArg Except.ok (settle_after before done _)
    | none =>
      cases hrequest : request dialect r with
      | write w => simp [State.after, hrequest, Except.map]
      | bulk address size =>
        simp only [State.after, hrequest, Except.map, settle_after]
      | unsupported code => simp [State.after, hrequest, Except.map]

theorem foldlM_step_after (dialect : Dialect) (lines : List String) (s : State) :
    lines.foldlM (step dialect) (s.after before) =
      (lines.foldlM (step dialect) s).map (State.after before) := by
  induction lines generalizing s with
  | nil => rfl
  | cons line lines ih =>
    rw [List.foldlM_cons, List.foldlM_cons, step_after]
    cases step dialect s line with
    | error fault => rfl
    | ok t => exact ih t

theorem finish_after (s : State) :
    finish (s.after before) = (finish s).map (before.reverse ++ ·) := by
  obtain ⟨done, _ | p⟩ := s
  · simp [finish, State.after, Except.map]
  · rfl

end

variable {dialect : Dialect} {front : List String}

theorem writes_of_ne (hd : dialect ≠ .bytes) (lines : List String) :
    writes dialect lines = (lines.foldlM (step dialect) {}).bind finish := by
  rw [writes, if_neg hd]

/-- Lines that can be replayed leave no bulk store open. -/
theorem foldlM_of_writes {ws : List Write} (h : writes dialect front = .ok ws) :
    dialect ≠ .bytes ∧ front.foldlM (step dialect) {} = .ok (State.after ws.reverse {}) := by
  by_cases hd : dialect = .bytes
  · rw [writes, if_pos hd] at h
    cases h
  rw [writes_of_ne hd] at h
  refine ⟨hd, ?_⟩
  cases hfold : front.foldlM (step dialect) {} with
  | error fault => rw [hfold] at h; cases h
  | ok s =>
    rw [hfold] at h
    obtain ⟨done, _ | p⟩ := s
    · obtain rfl : done.reverse = ws := Except.ok.inj h
      rw [List.reverse_reverse]
      rfl
    · cases h

theorem writes_append_of_ok {ws : List Write} (h : writes dialect front = .ok ws)
    (back : List String) :
    writes dialect (front ++ back) = (writes dialect back).map (ws ++ ·) := by
  obtain ⟨hd, hfront⟩ := foldlM_of_writes h
  rw [writes_of_ne hd, writes_of_ne hd, List.foldlM_append, hfront]
  change (List.foldlM (step dialect) (State.after ws.reverse {}) back).bind finish = _
  rw [foldlM_step_after]
  cases back.foldlM (step dialect) {} with
  | error fault => rfl
  | ok s =>
    refine (finish_after ws.reverse s).trans ?_
    rw [List.reverse_reverse]
    rfl

theorem writes_append_of_error {fault : ReplayFault} (h : writes dialect front = .error fault)
    (hfault : ∀ address, fault ≠ .truncated address) (back : List String) :
    writes dialect (front ++ back) = .error fault := by
  by_cases hd : dialect = .bytes
  · rw [writes, if_pos hd] at h ⊢
    exact h
  rw [writes_of_ne hd] at h ⊢
  rw [List.foldlM_append]
  cases hfold : front.foldlM (step dialect) {} with
  | error fault' =>
    rw [hfold] at h
    exact h
  | ok s =>
    rw [hfold] at h
    obtain ⟨done, _ | p⟩ := s
    · cases h
    · exact absurd (Except.error.inj h).symm (hfault p.address)

end Replay

namespace Image

theorem insertAll_eq_union (image : Image) (cells : List (Address × UInt8)) :
    image.insertAll cells = image ∪ insertAll ∅ cells := by
  induction cells using List.reverseRecOn with
  | nil =>
    ext place value
    simp [insertAll, Std.ExtTreeMap.getElem?_union]
  | append_singleton cells cell ih =>
    have hlast : ∀ image : Image, image.insertAll (cells ++ [cell]) =
        (image.insertAll cells).insert cell.1 cell.2 :=
      fun image => List.foldl_append
    rw [hlast, hlast, ih]
    ext place value
    simp only [Std.ExtTreeMap.getElem?_union, Std.ExtTreeMap.getElem?_insert]
    split_ifs <;> rfl

theorem ofWrites_append (ws vs : List Write) : ofWrites (ws ++ vs) = ofWrites ws ∪ ofWrites vs := by
  rw [ofWrites_eq_insertAll, ofWrites_eq_insertAll ws, ofWrites_eq_insertAll vs,
    List.flatMap_append, ← insertAll_eq_union, insertAll, insertAll, insertAll, List.foldl_append]

end Image

section

variable {dialect : Dialect} {lines : List String}

theorem replay_eq_ok_iff {image : Image} :
    replay dialect lines = .ok image ↔
      ∃ ws, Replay.writes dialect lines = .ok ws ∧ Image.ofWrites ws = image := by
  rw [replay]
  cases Replay.writes dialect lines <;> simp [Except.map]

theorem replay_eq_error_iff {fault : ReplayFault} :
    replay dialect lines = .error fault ↔ Replay.writes dialect lines = .error fault := by
  rw [replay]
  cases Replay.writes dialect lines <;> simp [Except.map]

end

/-- Lines behind lines that can be replayed override their memory, as the union does where both
sides hold a byte, or bring in their fault. A fault other than missing lines of a bulk store remains
whatever follows. -/
theorem replay_append (dialect : Dialect) (front back : List String) :
    (∀ image, replay dialect front = .ok image →
        (∀ image', replay dialect back = .ok image' →
          replay dialect (front ++ back) = .ok (image ∪ image')) ∧
        ∀ fault, replay dialect back = .error fault →
        replay dialect (front ++ back) = .error fault) ∧
      ∀ fault, replay dialect front = .error fault → (∀ address, fault ≠ .truncated address) →
        replay dialect (front ++ back) = .error fault := by
  refine ⟨fun image himage => ?_, fun fault hfault hopen => ?_⟩
  · obtain ⟨ws, hws, rfl⟩ := replay_eq_ok_iff.mp himage
    have happend := Replay.writes_append_of_ok hws back
    refine ⟨fun image' himage' => ?_, fun fault hfault => ?_⟩
    · obtain ⟨vs, hvs, rfl⟩ := replay_eq_ok_iff.mp himage'
      rw [hvs] at happend
      exact replay_eq_ok_iff.mpr ⟨ws ++ vs, happend, Image.ofWrites_append ws vs⟩
    · rw [replay_eq_error_iff.mp hfault] at happend
      exact replay_eq_error_iff.mpr happend
  · exact replay_eq_error_iff.mpr
      (Replay.writes_append_of_error (replay_eq_error_iff.mp hfault) hopen back)

def bulkStore : List String := ["06000100 00000005", "01020304 05000000"]

theorem replay_append_bulkStore :
    (replay .gecko bulkStore = .ok (.ofWrites [⟨0x100, [1, 2, 3, 4, 5]⟩]) ∧
        replay .gecko ["00000101 000000FF"] = .ok (.ofWrites [⟨0x101, [0xFF]⟩]) ∧
        replay .gecko ["nonsense"] = .error (.malformed "nonsense")) ∧
      replay .gecko (bulkStore ++ ["00000101 000000FF"]) =
        .ok (.ofWrites [⟨0x100, [1, 2, 3, 4, 5]⟩] ∪ .ofWrites [⟨0x101, [0xFF]⟩]) ∧
      replay .gecko (bulkStore ++ ["nonsense"]) = .error (.malformed "nonsense") ∧
      replay .gecko (["nonsense"] ++ bulkStore) = .error (.malformed "nonsense") := by
  have hbulk : replay .gecko bulkStore = .ok (.ofWrites [⟨0x100, [1, 2, 3, 4, 5]⟩]) :=
    replay_eq_ok_iff.mpr ⟨_, by decide +kernel, rfl⟩
  have hbyte : replay .gecko ["00000101 000000FF"] = .ok (.ofWrites [⟨0x101, [0xFF]⟩]) :=
    replay_eq_ok_iff.mpr ⟨_, by decide +kernel, rfl⟩
  have hnonsense : replay .gecko ["nonsense"] = .error (.malformed "nonsense") :=
    replay_eq_error_iff.mpr (by decide +kernel)
  exact ⟨⟨hbulk, hbyte, hnonsense⟩, ((replay_append _ _ _).1 _ hbulk).1 _ hbyte,
    ((replay_append _ _ _).1 _ hbulk).2 _ hnonsense, (replay_append _ _ _).2 _ hnonsense (by simp)⟩

end PatchCode
