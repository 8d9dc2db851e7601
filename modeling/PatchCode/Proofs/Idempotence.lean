import Mathlib.Tactic
import PatchCode.Proofs.Effects

/-! A pass has nothing left to do on its own output. Flattening leaves no repeat groups and
realigning no write off its boundaries, and what is so is left as it is. Merging is associative:
writes that are contiguous may be joined in any order, so it does not see where a write was cut, and
takes back what realigning does. -/

namespace PatchCode

namespace Write

theorem followedBy_iff {w next : Write} :
    w.followedBy next = true ↔ w.address.advance w.size = next.address := by
  simp [followedBy, stop]

theorem size_join (w next : Write) : (w.join next).size = w.size + next.size := List.length_append

theorem stop_join {w next : Write} (h : w.followedBy next = true) :
    (w.join next).stop = next.stop := by
  rw [stop, size_join, join, ← Address.advance_advance, followedBy_iff.mp h, stop]

theorem join_followedBy {w next : Write} (h : w.followedBy next = true) (v : Write) :
    (w.join next).followedBy v = next.followedBy v := by
  rw [followedBy, stop_join h, followedBy]

theorem join_assoc (w v u : Write) : (w.join v).join u = w.join (v.join u) := by
  simp only [join, List.append_assoc]

theorem size_split_fst (w : Write) {n : Nat} (h : n ≤ w.size) : (w.split n).1.size = n :=
  List.length_take_of_le h

theorem size_split_snd (w : Write) (n : Nat) : (w.split n).2.size = w.size - n := List.length_drop

theorem split_followedBy (w : Write) {n : Nat} (h : n ≤ w.size) :
    (w.split n).1.followedBy (w.split n).2 = true := by
  rw [followedBy_iff, size_split_fst w h]
  rfl

theorem join_split (w : Write) (n : Nat) : (w.split n).1.join (w.split n).2 = w := by
  simp only [split, join, List.take_append_drop]

theorem split_join {w next : Write} (h : w.followedBy next = true) :
    (w.join next).split w.size = (w, next) := by
  simp only [split, join, followedBy_iff.mp h]
  simp [size]

/-- Two or more bytes start at an even address, and four or more at a multiple of four. -/
def Aligned (w : Write) : Prop :=
  (w.address % 2 = 0 ∨ w.size < 2) ∧ (w.address % 4 = 0 ∨ w.size < 4)

theorem aligned_iff {w : Write} :
    w.Aligned ↔
      (w.address.toNat % 2 = 0 ∨ w.size < 2) ∧ (w.address.toNat % 4 = 0 ∨ w.size < 4) := by
  rw [Aligned, Address.mod_two_eq_zero, Address.mod_four_eq_zero]

theorem toWordBoundary_of_aligned {w : Write} (h : w.Aligned) : w.toWordBoundary = [w] := by
  rw [toWordBoundary, if_neg]
  rintro ⟨hoff, hsize⟩
  rcases h.2 with haddress | hsmall
  · exact hoff haddress
  · omega

theorem realign_of_aligned {w : Write} (h : w.Aligned) : w.realign = [w] := by
  rw [realign, if_neg]
  · exact toWordBoundary_of_aligned h
  rintro ⟨hodd, hsize⟩
  rcases h.1 with haddress | hsmall
  · exact hodd haddress
  · omega

theorem toNat_split_snd (w : Write) (n : Nat) :
    (w.split n).2.address.toNat = (w.address.toNat + n) % 2 ^ 32 :=
  w.address.toNat_advance n

theorem aligned_of_mem_toWordBoundary {w v : Write} (heven : w.address.toNat % 2 = 0 ∨ w.size < 2)
    (hv : v ∈ w.toWordBoundary) : v.Aligned := by
  rw [aligned_iff]
  simp only [toWordBoundary, ne_eq, Address.mod_four_eq_zero] at hv
  split_ifs at hv with hoff
  · simp only [List.mem_cons, List.not_mem_nil, or_false] at hv
    rcases hv with rfl | rfl
    · have hsize := size_split_fst w (n := 2) (by omega)
      exact ⟨.inl (by simp only [split]; omega), .inr (by omega)⟩
    · rw [toNat_split_snd]
      omega
  · obtain rfl := List.mem_singleton.mp hv
    omega

theorem aligned_of_mem_realign {w v : Write} (hv : v ∈ w.realign) : v.Aligned := by
  simp only [realign, ne_eq, Address.mod_two_eq_zero] at hv
  split_ifs at hv with hodd
  · rcases List.mem_cons.mp hv with rfl | hv
    · have hsize := size_split_fst w (n := 1) (by omega)
      exact aligned_iff.mpr ⟨.inr (by omega), .inr (by omega)⟩
    · refine aligned_of_mem_toWordBoundary (.inl ?_) hv
      rw [toNat_split_snd]
      omega
  · exact aligned_of_mem_toWordBoundary (by omega) hv

end Write

namespace Patch

open Write

theorem joinFront_write_write (w v : Write) (ps : List Patch) :
    joinFront (write w) (write v :: ps) =
      if w.followedBy v then write (w.join v) :: ps else write w :: write v :: ps := rfl

/-- Contiguous writes may be joined in any order. -/
theorem joinFront_joinFront {w v : Write} (h : w.followedBy v = true) (ps : List Patch) :
    joinFront (write w) (joinFront (write v) ps) = joinFront (write (w.join v)) ps := by
  have hone : joinFront (write w) (write v :: ps) = write (w.join v) :: ps := by
    rw [joinFront_write_write, if_pos h]
  rcases ps with _ | ⟨p, ps⟩
  · exact hone
  cases p with
  | write u =>
    -- A third write joins the two exactly if it joins the second, which stops where they stop.
    rw [joinFront_write_write v u, joinFront_write_write (w.join v) u, join_followedBy h]
    split_ifs with hu
    · have hjoin : w.followedBy (v.join u) = true := h
      rw [joinFront_write_write, if_pos hjoin, join_assoc]
    · exact hone
  | block | group | guard | adjust => exact hone

/-- Merging does not see where a write was cut. -/
theorem mergeAll_split (w : Write) {n : Nat} (h : n ≤ w.size) (ps : List Patch) :
    mergeAll (write (w.split n).1 :: write (w.split n).2 :: ps) = mergeAll (write w :: ps) := by
  simp only [mergeAll, merge]
  rw [joinFront_joinFront (split_followedBy w h), join_split]

theorem mergeAll_pieces {w : Write} {ws : List Write} (h : Pieces w ws) (ps : List Patch) :
    mergeAll (ws.map write ++ ps) = mergeAll (write w :: ps) := by
  induction h with
  | whole w => rfl
  | @cut w n ws _ hlt _ ih =>
    rw [List.map_cons, List.cons_append, mergeAll, ih, ← mergeAll, mergeAll_split w hlt.le]

mutual

theorem mergeAll_realign :
    ∀ (p : Patch) (ps : List Patch), mergeAll (realign p ++ ps) = joinFront (merge p) (mergeAll ps)
  | write w, ps => mergeAll_pieces w.pieces_realign ps
  | block body, ps | group body, ps | guard _ body, ps => by
    simp only [realign, List.singleton_append, mergeAll, merge, mergeAll_realignAll body]
  | adjust _, _ => rfl

/-- Merging takes back all that realigning does. -/
theorem mergeAll_realignAll : ∀ ps : List Patch, mergeAll (realignAll ps) = mergeAll ps
  | [] => rfl
  | p :: ps => by rw [realignAll, mergeAll_realign p, mergeAll_realignAll ps, mergeAll]

end

theorem mergeAll_joinFront_append (p : Patch) (ps qs : List Patch) :
    mergeAll (joinFront p ps ++ qs) = joinFront (merge p) (mergeAll (ps ++ qs)) := by
  unfold joinFront
  split
  next w v ps =>
    split_ifs with h
    · simp only [List.cons_append, mergeAll, merge]
      exact (joinFront_joinFront h _).symm
    · rfl
  next => rfl

mutual

theorem merge_merge : ∀ p : Patch, merge (merge p) = merge p
  | write _ | adjust _ => rfl
  | block body | group body | guard _ body => by
    have hbody := mergeAll_mergeAll_append body []
    rw [List.append_nil, List.append_nil] at hbody
    simp only [merge, hbody]

/-- What has been merged merges with what follows as it did before. -/
theorem mergeAll_mergeAll_append :
    ∀ ps qs : List Patch, mergeAll (mergeAll ps ++ qs) = mergeAll (ps ++ qs)
  | [], _ => rfl
  | p :: ps, qs => by
    rw [mergeAll, mergeAll_joinFront_append, merge_merge p, mergeAll_mergeAll_append ps qs,
      List.cons_append, mergeAll]

end

theorem mergeAll_mergeAll (ps : List Patch) : mergeAll (mergeAll ps) = mergeAll ps := by
  simpa only [List.append_nil] using mergeAll_mergeAll_append ps []

theorem allWrites_append (ps qs : List Patch) :
    allWrites (ps ++ qs) = allWrites ps ++ allWrites qs := by
  induction ps with
  | nil => rfl
  | cons p ps ih => simp only [List.cons_append, allWrites, ih, List.append_assoc]

theorem allWrites_singleton (p : Patch) : allWrites [p] = writes p := List.append_nil _

theorem allWrites_map_write (ws : List Write) : allWrites (ws.map write) = ws := by
  induction ws with
  | nil => rfl
  | cons w ws ih => simp only [List.map_cons, allWrites, writes, ih, List.singleton_append]

mutual

theorem allWrites_realign : ∀ p : Patch, allWrites (realign p) = (writes p).flatMap Write.realign
  | write w => by rw [realign, allWrites_map_write, writes, List.flatMap_singleton]
  | block body | group body | guard _ body => by
    rw [realign, allWrites_singleton, writes, writes, allWrites_realignAll body]
  | adjust _ => rfl

theorem allWrites_realignAll :
    ∀ ps : List Patch, allWrites (realignAll ps) = (allWrites ps).flatMap Write.realign
  | [] => rfl
  | p :: ps => by
    rw [realignAll, allWrites_append, allWrites_realign p, allWrites_realignAll ps, allWrites,
      List.flatMap_append]

end

mutual

theorem realign_eq_self : ∀ {p : Patch}, (∀ w ∈ writes p, w.Aligned) → realign p = [p]
  | write w, h => by rw [realign, realign_of_aligned (h w (List.mem_singleton_self w))]; rfl
  | block _, h | group _, h | guard _ _, h => by rw [realign, realignAll_eq_self h]
  | adjust _, _ => rfl

theorem realignAll_eq_self :
    ∀ {ps : List Patch}, (∀ w ∈ allWrites ps, w.Aligned) → realignAll ps = ps
  | [], _ => rfl
  | p :: ps, h => by
    rw [realignAll, realign_eq_self fun w hw => h w (List.mem_append_left _ hw),
      realignAll_eq_self fun w hw => h w (List.mem_append_right _ hw), List.singleton_append]

end

theorem aligned_realignAll (ps : List Patch) : ∀ w ∈ allWrites (realignAll ps), w.Aligned := by
  intro w hw
  rw [allWrites_realignAll] at hw
  obtain ⟨v, -, hv⟩ := List.mem_flatMap.mp hw
  exact aligned_of_mem_realign hv

theorem anyGroup_append (ps qs : List Patch) :
    anyGroup (ps ++ qs) = (anyGroup ps || anyGroup qs) := by
  induction ps with
  | nil => rfl
  | cons p ps ih => simp only [List.cons_append, anyGroup, ih, Bool.or_assoc]

theorem anyGroup_singleton (p : Patch) : anyGroup [p] = hasGroup p := Bool.or_false _

mutual

theorem anyGroup_flatten : ∀ p : Patch, anyGroup (flatten p) = false
  | write _ | adjust _ => rfl
  | group body => anyGroup_flattenAll body
  | block body | guard _ body => by
    rw [flatten, anyGroup_singleton, hasGroup, anyGroup_flattenAll body]

theorem anyGroup_flattenAll : ∀ ps : List Patch, anyGroup (flattenAll ps) = false
  | [] => rfl
  | p :: ps => by
    rw [flattenAll, anyGroup_append, anyGroup_flatten p, anyGroup_flattenAll ps, Bool.or_false]

end

mutual

theorem flatten_eq_self : ∀ {p : Patch}, hasGroup p = false → flatten p = [p]
  | write _, _ | adjust _, _ => rfl
  | block _, h | guard _ _, h => by rw [flatten, flattenAll_eq_self h]

theorem flattenAll_eq_self : ∀ {ps : List Patch}, anyGroup ps = false → flattenAll ps = ps
  | [], _ => rfl
  | p :: ps, h => by
    rw [anyGroup, Bool.or_eq_false_iff] at h
    rw [flattenAll, flatten_eq_self h.1, flattenAll_eq_self h.2, List.singleton_append]

end

theorem anyGroup_joinFront (p : Patch) (ps : List Patch) :
    anyGroup (joinFront p ps) = (hasGroup p || anyGroup ps) := by
  unfold joinFront
  split
  · split_ifs <;> rfl
  · rfl

mutual

theorem hasGroup_merge : ∀ p : Patch, hasGroup (merge p) = hasGroup p
  | write _ | adjust _ | group _ => rfl
  | block body | guard _ body => anyGroup_mergeAll body

theorem anyGroup_mergeAll : ∀ ps : List Patch, anyGroup (mergeAll ps) = anyGroup ps
  | [] => rfl
  | p ::
    ps => by rw [mergeAll, anyGroup_joinFront, hasGroup_merge p, anyGroup_mergeAll ps, anyGroup]

end

theorem anyGroup_map_write (ws : List Write) : anyGroup (ws.map write) = false := by
  induction ws with
  | nil => rfl
  | cons w ws ih => exact ih

mutual

theorem anyGroup_realign : ∀ p : Patch, anyGroup (realign p) = hasGroup p
  | write w => anyGroup_map_write w.realign
  | adjust _ | group _ => rfl
  | block body | guard _ body => by
    rw [realign, anyGroup_singleton, hasGroup, anyGroup_realignAll body, hasGroup]

theorem anyGroup_realignAll : ∀ ps : List Patch, anyGroup (realignAll ps) = anyGroup ps
  | [] => rfl
  | p ::
    ps => by rw [realignAll, anyGroup_append, anyGroup_realign p, anyGroup_realignAll ps, anyGroup]

end

theorem flattenAll_flattenAll (ps : List Patch) : flattenAll (flattenAll ps) = flattenAll ps :=
  flattenAll_eq_self (anyGroup_flattenAll ps)

theorem realignAll_realignAll (ps : List Patch) : realignAll (realignAll ps) = realignAll ps :=
  realignAll_eq_self (aligned_realignAll ps)

theorem optimize_def (program : List Patch) :
    optimize program = realignAll (mergeAll (flattenAll program)) := rfl

theorem anyGroup_optimize (program : List Patch) : anyGroup (optimize program) = false := by
  rw [optimize_def, anyGroup_realignAll, anyGroup_mergeAll, anyGroup_flattenAll]

theorem flattenAll_optimize (program : List Patch) :
    flattenAll (optimize program) = optimize program :=
  flattenAll_eq_self (anyGroup_optimize program)

theorem mergeAll_optimize (program : List Patch) :
    mergeAll (optimize program) = mergeAll (flattenAll program) := by
  rw [optimize_def, mergeAll_realignAll, mergeAll_mergeAll]

/-- Every pass, each half of the write pass and the usual passes one after the other leave what they
made as it is. -/
theorem passes_idempotent (program : List Patch) :
    flattenAll (flattenAll program) = flattenAll program ∧
      mergeAll (mergeAll program) = mergeAll program ∧
      realignAll (realignAll program) = realignAll program ∧
      (∀ pass : Pass, pass.run (pass.run program) = pass.run program) ∧
      optimize (optimize program) = optimize program := by
  refine ⟨flattenAll_flattenAll program, mergeAll_mergeAll program, realignAll_realignAll program,
    ?_, ?_⟩
  · intro pass
    cases pass with
    | flatten => exact flattenAll_flattenAll program
    | writeData => simp only [Pass.run, mergeAll_realignAll, mergeAll_mergeAll]
  · calc
      optimize (optimize program) = realignAll (mergeAll (optimize program)) := by
        rw [optimize_def, flattenAll_optimize]
      _ = optimize program := by rw [mergeAll_optimize, ← optimize_def]

end Patch

end PatchCode
