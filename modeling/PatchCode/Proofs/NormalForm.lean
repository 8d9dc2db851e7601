import Mathlib.Tactic
import PatchCode.Proofs.Recutting

/-! What the usual passes leave behind: no repeat groups, writes on their boundaries, and contiguous
neighbours only where one write in their place would stand off its boundaries. Merging and
realigning go from sequence to sequence, so it is enough to look at one sequence: a merged one has
no contiguous neighbours, and realigning makes some only within the pieces of one write. -/

namespace PatchCode

namespace Patch

open Write

theorem filled_optimize {program : List Patch} (h : Filled (allWrites program)) :
    Filled (allWrites (optimize program)) :=
  filled_realignAll (filled_mergeAll (filled_flattenAll h))

/-- After the usual passes there is no repeat group at any depth, a write at an odd address is a
single byte, and one off a multiple of four has fewer than four bytes. Nothing that the program does
is lost. -/
theorem optimize_aligned (program : List Patch) (hfilled : Filled (allWrites program)) :
    anyGroup (optimize program) = false ∧
      (∀ w ∈ allWrites (optimize program),
        (w.address.toNat % 2 = 0 ∨ w.size = 1) ∧ (w.address.toNat % 4 = 0 ∨ w.size < 4)) ∧
      allEffects (optimize program) = allEffects program := by
  refine ⟨anyGroup_optimize program, ?_, Simplification.allEffects_runAll [.flatten, .merge,
    .realign] program⟩
  intro w hw
  have hpos : 0 < w.size := List.length_pos_of_ne_nil (filled_optimize hfilled w hw)
  have haligned := aligned_iff.mp (aligned_realignAll _ w hw)
  omega

/-- Two writes backwards, and under a guard a run of bytes in pieces across the end of the address
space. -/
def scatteredWrites : List Patch :=
  [write ⟨4, [1]⟩, write ⟨3, [2]⟩,
    guard ⟨.equal, .u8, 0x10, 1⟩
      [group [write ⟨0xFFFFFFFD, [1, 2]⟩, group [write ⟨0xFFFFFFFF, [3, 4, 5]⟩]],
        write ⟨2, [6, 7, 8]⟩]]

theorem optimize_scatteredWrites :
    Filled (allWrites scatteredWrites) ∧ anyGroup (optimize scatteredWrites) = false ∧
      ∃ w ∈ allWrites (optimize scatteredWrites), w = ⟨0xFFFFFFFE, [2, 3]⟩ ∧
        (w.address.toNat % 2 = 0 ∨ w.size = 1) ∧ (w.address.toNat % 4 = 0 ∨ w.size < 4) := by
  have hfilled : Filled (allWrites scatteredWrites) := by
    simp [Filled, scatteredWrites, allWrites, writes]
  have hmem : ⟨0xFFFFFFFE, [2, 3]⟩ ∈ allWrites (optimize scatteredWrites) := by decide
  obtain ⟨hgroups, haligned, -⟩ := optimize_aligned scatteredWrites hfilled
  exact ⟨hfilled, hgroups, _, hmem, rfl, haligned _ hmem⟩

mutual

def bodies : Patch → List (List Patch)
  | block body | group body | guard _ body => body :: allBodies body
  | write _ | adjust _ => []

def allBodies : List Patch → List (List Patch)
  | [] => []
  | p :: ps => bodies p ++ allBodies ps

end

def sequences (program : List Patch) : List (List Patch) := program :: allBodies program

theorem allBodies_append (ps qs : List Patch) :
    allBodies (ps ++ qs) = allBodies ps ++ allBodies qs := by
  induction ps with
  | nil => rfl
  | cons p ps ih => simp only [List.cons_append, allBodies, ih, List.append_assoc]

theorem allBodies_singleton (p : Patch) : allBodies [p] = bodies p := List.append_nil _

theorem allBodies_map_write (ws : List Write) : allBodies (ws.map write) = [] := by
  induction ws with
  | nil => rfl
  | cons w ws ih => exact ih

theorem allBodies_joinFront (p : Patch) (ps : List Patch) :
    allBodies (joinFront p ps) = bodies p ++ allBodies ps := by
  unfold joinFront
  split
  · split_ifs <;> rfl
  · rfl

mutual

theorem bodies_merge : ∀ p : Patch, bodies (merge p) = (bodies p).map mergeAll
  | write _ | adjust _ => rfl
  | block body | group body | guard _ body => by
    simp only [merge, bodies, allBodies_mergeAll body, List.map_cons]

theorem allBodies_mergeAll :
    ∀ ps : List Patch, allBodies (mergeAll ps) = (allBodies ps).map mergeAll
  | [] => rfl
  | p :: ps => by
    rw [mergeAll, allBodies_joinFront, bodies_merge p, allBodies_mergeAll ps, allBodies,
      List.map_append]

end

mutual

theorem allBodies_realign : ∀ p : Patch, allBodies (realign p) = (bodies p).map realignAll
  | write w => allBodies_map_write w.realign
  | adjust _ => rfl
  | block body | group body | guard _ body => by
    simp only [realign, allBodies_singleton, bodies, allBodies_realignAll body, List.map_cons]

theorem allBodies_realignAll :
    ∀ ps : List Patch, allBodies (realignAll ps) = (allBodies ps).map realignAll
  | [] => rfl
  | p :: ps => by
    rw [realignAll, allBodies_append, allBodies_realign p, allBodies_realignAll ps, allBodies,
      List.map_append]

end

/-- Merging goes from sequence to sequence. -/
theorem sequences_mergeAll (ps : List Patch) :
    sequences (mergeAll ps) = (sequences ps).map mergeAll := by
  rw [sequences, allBodies_mergeAll, sequences, List.map_cons]

/-- Realigning goes from sequence to sequence. -/
theorem sequences_realignAll (ps : List Patch) :
    sequences (realignAll ps) = (sequences ps).map realignAll := by
  rw [sequences, allBodies_realignAll, sequences, List.map_cons]

def contiguous : Patch → Patch → Bool
  | write w, write next => w.followedBy next
  | _, _ => false

abbrev Separated (ps : List Patch) : Prop := ps.IsChain fun p q => contiguous p q = false

theorem contiguous_join {w v : Write} (h : w.followedBy v = true) (q : Patch) :
    contiguous (write (w.join v)) q = contiguous (write v) q := by
  cases q with
  | write u => exact join_followedBy h u
  | block | group | guard | adjust => rfl

theorem separated_joinFront {p : Patch} {ps : List Patch} (h : Separated ps) :
    Separated (joinFront p ps) := by
  cases p with
  | write w =>
    rcases ps with _ | ⟨q, ps⟩
    · exact .singleton _
    cases q with
    | write v =>
      rw [joinFront_write_write]
      split_ifs with hw
      · -- The joined write stops where its second part did.
        obtain ⟨hv, hrest⟩ := List.isChain_cons.mp h
        exact List.isChain_cons.mpr ⟨fun q hq => (contiguous_join hw q).trans (hv q hq), hrest⟩
      · exact .cons_cons (Bool.eq_false_iff.mpr hw) h
    | block | group | guard | adjust => exact .cons_cons rfl h
  | block | group | guard | adjust => exact List.isChain_cons.mpr ⟨fun _ _ => rfl, h⟩

theorem separated_mergeAll (ps : List Patch) : Separated (mergeAll ps) := by
  induction ps with
  | nil => exact .nil
  | cons p ps ih => exact separated_joinFront ih

end Patch

namespace Write

theorem stop_split_snd (w : Write) {n : Nat} (h : n ≤ w.size) : (w.split n).2.stop = w.stop := by
  rw [← stop_join (split_followedBy w h), join_split]

theorem Pieces.ne_nil {w : Write} {ws : List Write} (h : Pieces w ws) : ws ≠ [] := by
  cases h <;> exact List.cons_ne_nil _ _

theorem Pieces.address_head {w v : Write} {ws : List Write} (h : Pieces w ws) (hv : v ∈ ws.head?) :
    v.address = w.address := by
  cases h with
  | whole | cut =>
    obtain rfl := Option.some.inj hv
    rfl

theorem Pieces.stop_getLast {w v : Write} {ws : List Write} (h : Pieces w ws)
    (hv : v ∈ ws.getLast?) :
    v.stop = w.stop := by
  induction h with
  | whole w =>
    obtain rfl := Option.some.inj hv
    rfl
  | @cut w n ws _ hlt h ih =>
    rw [List.getLast?_cons_of_ne_nil h.ne_nil] at hv
    rw [ih hv, stop_split_snd w hlt.le]

theorem not_aligned_iff {w : Write} :
    ¬ w.Aligned ↔ (w.address.toNat % 2 ≠ 0 ∧ 2 ≤ w.size) ∨
      (w.address.toNat % 4 ≠ 0 ∧ 4 ≤ w.size) := by
  rw [aligned_iff]
  omega

/-- No two neighbouring pieces could be left as one write. -/
theorem isChain_toWordBoundary (w : Write) :
    w.toWordBoundary.IsChain fun v u => ¬ (v.join u).Aligned := by
  unfold toWordBoundary
  split_ifs with h
  · rw [List.isChain_pair, join_split, not_aligned_iff]
    exact .inr ⟨Address.mod_four_eq_zero.not.mp h.1, h.2⟩
  · exact .singleton w

theorem isChain_realign (w : Write) : w.realign.IsChain fun v u => ¬ (v.join u).Aligned := by
  unfold realign
  split_ifs with h
  · refine List.isChain_cons.mpr ⟨fun u hu => ?_, isChain_toWordBoundary _⟩
    have hrest : 0 < (w.split 1).2.size := by rw [size_split_snd]; omega
    have hsize : 0 < u.size := List.length_pos_of_ne_nil <|
      Patch.filled_pieces (pieces_toWordBoundary _) (List.ne_nil_of_length_pos hrest) u
        (List.mem_of_mem_head? hu)
    refine not_aligned_iff.mpr (.inl ⟨Address.mod_two_eq_zero.not.mp h.1, ?_⟩)
    rw [size_join, size_split_fst w (by omega)]
    omega
  · exact isChain_toWordBoundary w

end Write

namespace Patch

open Write

/-- One write in the place of both would stand off its boundaries. -/
def Parted : Patch → Patch → Prop
  | write w, write next => ¬ (w.join next).Aligned
  | _, _ => True

abbrev Settled (ps : List Patch) : Prop := ps.IsChain fun p q => contiguous p q = true → Parted p q

theorem settled_realign (p : Patch) : Settled (realign p) := by
  cases p with
  | write w => exact (List.isChain_map write).mpr ((isChain_realign w).imp fun _ _ h _ => h)
  | block | group | guard | adjust => exact .singleton _

theorem realign_ne_nil (p : Patch) : realign p ≠ [] := by
  cases p with
  | write w => exact mt List.map_eq_nil_iff.mp w.pieces_realign.ne_nil
  | block | group | guard | adjust => exact List.cons_ne_nil _ _

/-- The first piece starts where the write did. -/
theorem contiguous_head_realign {p q : Patch} (hq : q ∈ (realign p).head?) (r : Patch) :
    contiguous r q = contiguous r p := by
  cases p with
  | write w =>
    rw [realign, List.head?_map] at hq
    obtain ⟨v, hv, rfl⟩ := Option.mem_map.mp hq
    cases r with
    | write u =>
      rw [contiguous, contiguous, followedBy, followedBy, w.pieces_realign.address_head hv]
    | block | group | guard | adjust => rfl
  | block | group | guard | adjust =>
    obtain rfl := Option.some.inj hq
    cases r <;> rfl

/-- The last piece stops where the write did. -/
theorem contiguous_getLast_realign {p q : Patch} (hq : q ∈ (realign p).getLast?) (r : Patch) :
    contiguous q r = contiguous p r := by
  cases p with
  | write w =>
    rw [realign, List.getLast?_map] at hq
    obtain ⟨v, hv, rfl⟩ := Option.mem_map.mp hq
    cases r with
    | write u =>
      rw [contiguous, contiguous, followedBy, followedBy, w.pieces_realign.stop_getLast hv]
    | block | group | guard | adjust => rfl
  | block | group | guard | adjust =>
    obtain rfl := Option.some.inj hq
    rfl

/-- Pieces of different patches are no more contiguous than the patches were. -/
theorem settled_realignAll {ps : List Patch} (h : Separated ps) : Settled (realignAll ps) := by
  induction ps with
  | nil => exact .nil
  | cons p ps ih =>
    refine (settled_realign p).append (ih h.tail) fun x hx y hy hxy => ?_
    rcases ps with _ | ⟨q, ps⟩
    · simp [realignAll] at hy
    rw [realignAll, List.head?_append_of_ne_nil _ (realign_ne_nil q)] at hy
    rw [contiguous_head_realign hy, contiguous_getLast_realign hx,
      (List.isChain_cons_cons.mp h).1] at hxy
    exact absurd hxy Bool.false_ne_true

/-- Merging loses nothing and leaves no contiguous writes side by side, at any depth. After the
usual passes contiguous writes stand side by side only where one write in their place would be two
or more bytes at an odd address, or four or more off a multiple of four. -/
theorem neighbours_contiguous (program : List Patch) :
    allEffects (mergeAll program) = allEffects program ∧
    (∀ s ∈ sequences (mergeAll program), ∀ front prev next back,
      s = front ++ write prev :: write next :: back → prev.followedBy next = false) ∧
    ∀ s ∈ sequences (optimize program), ∀ front prev next back,
      s = front ++ write prev :: write next :: back → prev.followedBy next = true →
        (prev.address.toNat % 2 ≠ 0 ∧ 2 ≤ prev.size + next.size) ∨
          (prev.address.toNat % 4 ≠ 0 ∧ 4 ≤ prev.size + next.size) := by
  refine ⟨allEffects_mergeAll program, ?_, ?_⟩
  · intro s hs front prev next back hsplit
    rw [sequences_mergeAll] at hs
    obtain ⟨t, -, rfl⟩ := List.mem_map.mp hs
    exact List.isChain_iff_forall_rel_of_append_cons_cons.mp (separated_mergeAll t) hsplit
  · intro s hs front prev next back hsplit hfollowed
    rw [optimize_def, sequences_realignAll, sequences_mergeAll, List.map_map] at hs
    obtain ⟨t, -, rfl⟩ := List.mem_map.mp hs
    have hparted : ¬ (prev.join next).Aligned :=
      List.isChain_iff_forall_rel_of_append_cons_cons.mp (settled_realignAll (separated_mergeAll t))
        hsplit hfollowed
    rw [not_aligned_iff, size_join] at hparted
    exact hparted

/-- What the guard of `scatteredWrites` holds after the usual passes. -/
def settledBody : List Patch :=
  [write ⟨0xFFFFFFFD, [1]⟩, write ⟨0xFFFFFFFE, [2, 3]⟩, write ⟨0, [4, 5, 6, 7, 8]⟩]

theorem neighbours_scatteredWrites :
    (mergeAll scatteredWrites ∈ sequences (mergeAll scatteredWrites) ∧
      Write.followedBy ⟨4, [1]⟩ ⟨3, [2]⟩ = false) ∧
    settledBody ∈ sequences (optimize scatteredWrites) ∧
      ∃ prev next, settledBody = [write ⟨0xFFFFFFFD, [1]⟩] ++ write prev :: write next :: [] ∧
        prev.followedBy next = true ∧
        ((prev.address.toNat % 2 ≠ 0 ∧ 2 ≤ prev.size + next.size) ∨
          (prev.address.toNat % 4 ≠ 0 ∧ 4 ≤ prev.size + next.size)) := by
  obtain ⟨-, hmerged, hoptimized⟩ := neighbours_contiguous scatteredWrites
  have hbody : settledBody ∈ sequences (optimize scatteredWrites) :=
    List.mem_cons_of_mem _ List.mem_cons_self
  have hfollowed : Write.followedBy ⟨0xFFFFFFFE, [2, 3]⟩ ⟨0, [4, 5, 6, 7, 8]⟩ = true := by decide
  exact ⟨⟨List.mem_cons_self, hmerged _ List.mem_cons_self [] _ _ _ rfl⟩, hbody, _, _,
    rfl, hfollowed, hoptimized _ hbody [write ⟨0xFFFFFFFD, [1]⟩] _ _ [] rfl hfollowed⟩

end Patch

end PatchCode
