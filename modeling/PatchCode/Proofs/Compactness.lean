import Mathlib.Tactic
import PatchCode.Proofs.PlainProgram
import PatchCode.Proofs.PlanCost
import PatchCode.Proofs.Recutting

/-! What the usual passes cost in lines. Joining writes never makes their plans dearer and
realigning leaves their price as it is, so the passes cost no more than the difference between
prices and lines: one line for a loose record, and what bulk stores save. A cut by itself costs a
line at most. -/

namespace PatchCode

namespace Write

def cost (limits : FillLimits) (w : Write) : Nat := Plan.cost limits w.address w.bytes

def endsLoose (limits : FillLimits) (w : Write) : Bool := (w.plan limits).any WriteRecord.isLoose

variable (limits : FillLimits)

theorem cost_eq (w : Write) : w.cost limits = (w.plan limits).length + (w.endsLoose limits).toNat :=
  Plan.cost_eq limits w.bytes

theorem cost_toWordBoundary {w : Write} (h : w.address.toNat % 2 = 0 ∨ w.size < 4) :
    (w.toWordBoundary.map (cost limits)).sum = w.cost limits := by
  unfold toWordBoundary
  split_ifs with hoff
  · obtain ⟨hoff, hsize⟩ := hoff
    rw [Ne, Address.mod_four_eq_zero] at hoff
    obtain ⟨a, _ | ⟨x, _ | ⟨y, rest⟩⟩⟩ := w
    · simp [size] at hsize
    · simp [size] at hsize
    simp only [size, List.length_cons] at h hoff hsize
    simp only [split, List.map_cons, List.map_nil, List.sum_cons, List.sum_nil, cost,
      List.take_succ_cons, List.take_zero, List.drop_succ_cons, List.drop_zero]
    rcases Plan.cost_middle limits (by omega : a.toNat % 4 = 2) x y rest with hcost | ⟨hone, -⟩
    · rw [hcost, Plan.cost_pair limits (by omega), add_zero]
    · omega
  · simp

/-- Realigning cuts where the plan would have stopped, or a loose record. -/
theorem cost_realign (w : Write) : (w.realign.map (cost limits)).sum = w.cost limits := by
  unfold realign
  split_ifs with hodd
  · obtain ⟨hodd, hsize⟩ := hodd
    rw [Ne, Address.mod_two_eq_zero] at hodd
    obtain ⟨a, _ | ⟨x, rest⟩⟩ := w
    · simp [size] at hsize
    have heven := a.advance_mod_four 1
    rw [List.map_cons, List.sum_cons,
      cost_toWordBoundary limits (.inl (by simp only [split] at *; omega))]
    simp only [split, cost, List.take_succ_cons, List.take_zero, List.drop_succ_cons,
      List.drop_zero]
    rw [Plan.cost_single, Plan.cost_odd limits (by simpa using hodd)]
  · rw [Ne, Address.mod_two_eq_zero] at hodd
    exact cost_toWordBoundary limits (by omega)

theorem cost_join_le {w v : Write} (h : w.followedBy v = true) :
    (w.join v).cost limits ≤ w.cost limits + v.cost limits := by
  rw [cost, cost, cost, ← followedBy_iff.mp h]
  exact Plan.cost_append_le limits w.bytes v.bytes

end Write

namespace Patch

variable (limits : FillLimits)

def totalCost (ps : List Patch) : Nat := ((allWrites ps).map (Write.cost limits)).sum

theorem totalCost_append (ps qs : List Patch) :
    totalCost limits (ps ++ qs) = totalCost limits ps + totalCost limits qs := by
  rw [totalCost, allWrites_append, List.map_append, List.sum_append, totalCost, totalCost]

theorem totalCost_cons (p : Patch) (ps : List Patch) :
    totalCost limits (p :: ps) = totalCost limits [p] + totalCost limits ps :=
  totalCost_append limits [p] ps

theorem totalCost_joinFront_le (p : Patch) (ps : List Patch) :
    totalCost limits (joinFront p ps) ≤ totalCost limits (p :: ps) := by
  unfold joinFront
  split
  next w v ps =>
    split_ifs with h
    · have hjoin := Write.cost_join_le limits h
      simp only [totalCost, allWrites, writes, List.singleton_append, List.map_cons, List.sum_cons]
      omega
    · rfl
  next => rfl

mutual

theorem totalCost_merge_le : ∀ p : Patch, totalCost limits [merge p] ≤ totalCost limits [p]
  | write _ | adjust _ => le_rfl
  | block body | group body | guard _ body => by
    simpa only [totalCost, merge, allWrites_singleton, writes] using totalCost_mergeAll_le body

theorem totalCost_mergeAll_le :
    ∀ ps : List Patch, totalCost limits (mergeAll ps) ≤ totalCost limits ps
  | [] => le_rfl
  | p :: ps => by
    have hfront := totalCost_joinFront_le limits (merge p) (mergeAll ps)
    have hfirst := totalCost_merge_le p
    have hrest := totalCost_mergeAll_le ps
    rw [totalCost_cons] at hfront
    rw [mergeAll, totalCost_cons limits p]
    omega

end

theorem sum_flatMap (f : Write → Nat) (g : Write → List Write) (ws : List Write) :
    ((ws.flatMap g).map f).sum = (ws.map fun w => ((g w).map f).sum).sum := by
  induction ws with
  | nil => rfl
  | cons w ws ih =>
    rw [List.flatMap_cons, List.map_append, List.sum_append, ih, List.map_cons, List.sum_cons]

theorem totalCost_realignAll (ps : List Patch) :
    totalCost limits (realignAll ps) = totalCost limits ps := by
  rw [totalCost, allWrites_realignAll, sum_flatMap, totalCost]
  simp only [Write.cost_realign]

theorem totalCost_optimize_le (program : List Patch) :
    totalCost limits (optimize program) ≤ totalCost limits program := by
  have hflatten : totalCost limits (flattenAll program) = totalCost limits program := by
    rw [totalCost, allWrites_flattenAll, totalCost]
  rw [optimize_def, totalCost_realignAll, ← hflatten]
  exact totalCost_mergeAll_le limits _

end Patch

namespace Write

/-- Without fills a plan has a record for every four bytes between the word boundaries; a bulk store
has a line for every eight. -/
theorem cost_le_bulk (limits : FillLimits) (w : Write) :
    w.cost limits ≤ 2 * (1 + (w.size + 7) / 8) := by
  obtain ⟨a, bs⟩ := w
  change Plan.cost limits a bs ≤ 2 * (1 + (bs.length + 7) / 8)
  by_cases hodd : a.toNat % 2 = 1
  · rcases bs with _ | ⟨x, xs⟩
    · simp
    have hnext := a.advance_mod_four 1
    have hrest := Plan.cost_le_of_even limits (by omega : (a.advance 1).toNat % 2 = 0) xs
    rw [Plan.cost_odd limits hodd, List.length_cons]
    split_ifs at hrest <;> omega
  · have hcost := Plan.cost_le_of_even limits (by omega : a.toNat % 2 = 0) bs
    split_ifs at hcost <;> omega

theorem cost_le_bulk_of_aligned (limits : FillLimits) {w : Write} (h : w.Aligned)
    (hsize : w.size ≤ 4) :
    w.cost limits ≤ 1 + (w.size + 7) / 8 := by
  obtain ⟨a, bs⟩ := w
  change Plan.cost limits a bs ≤ 1 + (bs.length + 7) / 8
  change bs.length ≤ 4 at hsize
  rcases (aligned_iff.mp h).1 with heven | hone
  · have hcost : Plan.cost limits a bs ≤ _ := Plan.cost_le_of_even limits heven bs
    rcases bs with _ | ⟨x, xs⟩
    · simp
    rw [List.length_cons] at *
    split_ifs at hcost <;> omega
  · rcases bs with _ | ⟨x, _ | ⟨y, ys⟩⟩
    · simp
    · simp [Plan.cost_single]
    · simp [size] at hone

theorem cost_of_aligned (limits : FillLimits) {w : Write} (h : w.Aligned) (hpos : 1 ≤ w.size)
    (hsize : w.size ≤ 2) :
    w.cost limits = 1 := by
  obtain ⟨a, _ | ⟨x, _ | ⟨y, _ | ⟨z, rest⟩⟩⟩⟩ := w
  · simp [size] at hpos
  · exact Plan.cost_single limits x
  · rcases (aligned_iff.mp h).1 with heven | hone
    · exact Plan.cost_pair limits heven x y
    · simp [size] at hone
  · simp [size] at hsize

/-- Pieces of one or two bytes, and the rest of a write behind them. -/
def Trimmed (w : Write) (ws : List Write) : Prop :=
  ∃ heads rest, ws = heads ++ [rest] ∧ (heads = [] → rest = w) ∧ rest.size ≤ w.size ∧
    ∀ v ∈ heads, 1 ≤ v.size ∧ v.size ≤ 2

theorem trimmed_toWordBoundary (w : Write) : w.Trimmed w.toWordBoundary := by
  unfold toWordBoundary
  split_ifs with h
  · have hhead : (w.split 2).1.size = 2 := w.size_split_fst (by omega)
    refine ⟨[(w.split 2).1], (w.split 2).2, rfl, by simp, ?_, ?_⟩
    · simp [split, size]
    · simp [hhead]
  · exact ⟨[], w, rfl, fun _ => rfl, le_rfl, by simp⟩

theorem trimmed_realign (w : Write) : w.Trimmed w.realign := by
  unfold realign
  split_ifs with h
  · obtain ⟨heads, rest, hpieces, -, hsize, hheads⟩ := (w.split 1).2.trimmed_toWordBoundary
    have hhead : (w.split 1).1.size = 1 := w.size_split_fst (by omega)
    refine ⟨(w.split 1).1 :: heads, rest, by rw [hpieces]; rfl, by simp, hsize.trans ?_, ?_⟩
    · simp [split, size]
    · exact List.forall_mem_cons.mpr ⟨by omega, hheads⟩
  · exact w.trimmed_toWordBoundary

end Write

namespace Writer

/-- How far the fills of a writer go; a dump has none. -/
def limits : Writer → FillLimits
  | actionReplay => ActionReplay.limits
  | gecko _ => Gecko.limits
  | bytes => ⟨0, 0⟩

def bulks : Writer → Bool
  | gecko style => style.bulk
  | actionReplay | bytes => false

def linesOf (writer : Writer) (w : Write) : Nat := (writer.write [.write w]).lines.length

/-- What the plan of a write costs beyond its lines: one for a loose record, and what a bulk store
saves. -/
def surcharge (writer : Writer) (w : Write) : Nat :=
  (w.endsLoose writer.limits).toNat + ((w.plan writer.limits).length - writer.linesOf w)

theorem linesOf_actionReplay (w : Write) :
    actionReplay.linesOf w = (w.plan ActionReplay.limits).length := by
  simp [linesOf, write, Listing.map, ActionReplay.writeAll, ActionReplay.write,
    ActionReplay.writeData]

theorem linesOf_gecko (style : Gecko.Style) (w : Write) :
    (gecko style).linesOf w = (Gecko.writeData style w).lines.length := by
  rw [linesOf, Gecko.lines_singleton, List.length_map]

section Lines

variable {writer : Writer} (hwriter : writer.dialect ≠ .bytes)
include hwriter

/-- A write is its plan, or a bulk store if that is shorter. -/
theorem linesOf_eq (w : Write) :
    writer.linesOf w = if writer.bulks = true ∧ Gecko.smallWrite < w.size
      then min (1 + (w.size + 7) / 8) (w.plan writer.limits).length
        else (w.plan writer.limits).length := by
  cases writer with
  | bytes => exact absurd rfl hwriter
  | actionReplay => simp [linesOf_actionReplay, bulks, limits]
  | gecko style =>
    have hbulk : (Gecko.bulk w).length = 1 + (w.size + 7) / 8 := by
      rw [Gecko.bulk, List.length_cons, Replay.length_rows, Nat.add_comm]
    have hfills : (Gecko.runLength w).length = (w.plan Gecko.limits).length := List.length_map _
    rw [linesOf_gecko, Gecko.lines_writeData, ← hbulk, limits, ← hfills, bulks]
    simp only [← and_assoc]
    by_cases hallowed : style.bulk = true ∧ Gecko.smallWrite < w.size
    · simp only [hallowed, and_self, true_and, if_true]
      split_ifs with hshort
      · exact (min_eq_left hshort.le).symm
      · exact (min_eq_right (not_lt.mp hshort)).symm
    · simp only [hallowed, false_and, if_false]

theorem linesOf_le_plan (w : Write) :
    writer.linesOf w ≤ (w.plan writer.limits).length := by
  rw [linesOf_eq hwriter]
  split_ifs
  · exact min_le_right _ _
  · exact le_rfl

theorem linesOf_le_cost (w : Write) :
    writer.linesOf w ≤ w.cost writer.limits := by
  rw [w.cost_eq]
  exact (linesOf_le_plan hwriter w).trans (Nat.le_add_right _ _)

theorem cost_eq_add_surcharge (w : Write) :
    w.cost writer.limits = writer.linesOf w + writer.surcharge w := by
  have hle := linesOf_le_plan hwriter w
  rw [w.cost_eq, surcharge]
  omega

theorem cost_le_two_mul (w : Write) :
    w.cost writer.limits ≤ 2 * writer.linesOf w := by
  have hplan : w.cost writer.limits ≤ 2 * (w.plan writer.limits).length := by
    have hloose : (w.endsLoose writer.limits).toNat ≤ (w.plan writer.limits).length := by
      rcases hrecords : w.plan writer.limits with _ | ⟨r, records⟩
      · simp [Write.endsLoose, hrecords]
      · exact (Bool.toNat_le _).trans (by simp)
    rw [w.cost_eq]
    omega
  rw [linesOf_eq hwriter]
  split_ifs
  · have hbulk := w.cost_le_bulk writer.limits
    omega
  · exact hplan

theorem length_lines_of_plain {program : List Patch} (hplain : Patch.allPlain program = true) :
    (writer.write program).lines.length = ((Patch.allWrites program).map writer.linesOf).sum := by
  cases writer with
  | bytes => exact absurd rfl hwriter
  | actionReplay =>
    have hlines := ActionReplay.allLines_of_plain hplain
    simp only [write, Listing.map, List.length_map, hlines, List.length_flatMap,
      funext linesOf_actionReplay, ActionReplay.writeData]
  | gecko style =>
    have hlines := Gecko.allLines_of_plain style hplain
    simp only [write, Listing.map, List.length_map, hlines, List.length_flatMap,
      funext (linesOf_gecko style)]

theorem linesOf_le_bulk (hbulks : writer.bulks = true) {w : Write} (h : w.Aligned) :
    writer.linesOf w ≤ 1 + (w.size + 7) / 8 := by
  rw [linesOf_eq hwriter]
  split_ifs with hlarge
  · exact min_le_left _ _
  · have hsmall : w.size ≤ 4 := not_lt.mp fun hsize => hlarge ⟨hbulks, hsize⟩
    have hcost := w.cost_eq writer.limits
    have := Write.cost_le_bulk_of_aligned writer.limits h hsmall
    omega

/-- What realigning cuts off is one line each, and what it leaves has no more lines than there
were. -/
theorem linesOf_realign_le (w : Write) :
    (w.realign.map writer.linesOf).sum + 1 ≤ writer.linesOf w + w.realign.length := by
  obtain ⟨heads, rest, hpieces, hwhole, hsize, hheads⟩ := w.trimmed_realign
  have haligned : ∀ v ∈ heads ++ [rest], v.Aligned :=
    fun v hv => Write.aligned_of_mem_realign (hpieces ▸ hv)
  have hone : ∀ v ∈ heads, v.cost writer.limits = 1 := fun v hv =>
    Write.cost_of_aligned _ (haligned v (List.mem_append_left _ hv)) (hheads v hv).1 (hheads v hv).2
  have hcost : heads.length + rest.cost writer.limits = w.cost writer.limits := by
    rw [← w.cost_realign, hpieces, List.map_append, List.sum_append, List.map_congr_left hone]
    simp
  have hlines : (heads.map writer.linesOf).sum ≤ heads.length := by
    refine (List.sum_le_card_nsmul _ 1 ?_).trans (by simp)
    intro n hn
    obtain ⟨v, hv, rfl⟩ := List.mem_map.mp hn
    exact (linesOf_le_cost hwriter v).trans (hone v hv).le
  have hrest : writer.linesOf rest ≤ writer.linesOf w := by
    rcases List.eq_nil_or_concat heads with hnil | ⟨us, u, hcut⟩
    · rw [hwhole hnil]
    -- A cut pays for the loose record that the plan may have.
    have hplan : writer.linesOf rest ≤ (w.plan writer.limits).length := by
      have hloose := w.cost_eq writer.limits
      have hle := Bool.toNat_le (w.endsLoose writer.limits)
      have hleft := linesOf_le_cost hwriter rest
      rw [hcut, List.length_concat] at hcost
      omega
    rw [linesOf_eq hwriter w]
    split_ifs with hbulk
    · refine le_min ?_ hplan
      have := linesOf_le_bulk hwriter hbulk.1 (haligned rest (by simp))
      omega
    · exact hplan
  rw [hpieces, List.map_append, List.sum_append, List.length_append]
  simp only [List.map_cons, List.map_nil, List.sum_cons, List.sum_nil, List.length_cons,
    List.length_nil]
  omega

theorem linesOf_realignAll_le (ws : List Write) :
    ((ws.flatMap Write.realign).map writer.linesOf).sum + ws.length ≤
      (ws.map writer.linesOf).sum + (ws.flatMap Write.realign).length := by
  induction ws with
  | nil => rfl
  | cons w ws ih =>
    have hfirst := linesOf_realign_le hwriter w
    simp only [List.flatMap_cons, List.map_append, List.sum_append, List.map_cons, List.sum_cons,
      List.length_append, List.length_cons]
    omega

end Lines

end Writer

/-- Beyond the surcharges of its writes the usual passes cost a program no lines. They never more
than double its lines, and each cut costs the merged program a line at most. -/
theorem length_lines_optimize_le (writer : Writer) (hwriter : writer.dialect ≠ .bytes)
    (program : List Patch) (hplain : Patch.allPlain program = true) :
    (writer.write (Patch.optimize program)).lines.length ≤
        (writer.write program).lines.length + ((Patch.allWrites program).map writer.surcharge).sum ∧
      (writer.write (Patch.optimize program)).lines.length ≤
        2 * (writer.write program).lines.length ∧
      (writer.write (Patch.optimize program)).lines.length +
          (Patch.allWrites (Patch.mergeAll (Patch.flattenAll program))).length ≤
        (writer.write (Patch.mergeAll (Patch.flattenAll program))).lines.length +
          (Patch.allWrites (Patch.optimize program)).length := by
  have hoptimized : Patch.allPlain (Patch.optimize program) = true :=
    (Simplification.plain_runAll [.flatten, .merge, .realign] hplain).1
  have hmerged : Patch.allPlain (Patch.mergeAll (Patch.flattenAll program)) = true :=
    (Simplification.plain_runAll [.flatten, .merge] hplain).1
  have hcost : (writer.write (Patch.optimize program)).lines.length ≤
      Patch.totalCost writer.limits program := by
    rw [Writer.length_lines_of_plain hwriter hoptimized]
    exact (List.sum_le_sum fun w _ => Writer.linesOf_le_cost hwriter w).trans
      (Patch.totalCost_optimize_le writer.limits program)
  rw [Writer.length_lines_of_plain hwriter hplain]
  refine ⟨hcost.trans ?_, hcost.trans ?_, ?_⟩
  · rw [← List.sum_map_add]
    exact List.sum_le_sum fun w _ => (Writer.cost_eq_add_surcharge hwriter w).le
  · rw [← List.sum_map_mul_left]
    exact List.sum_le_sum fun w _ => Writer.cost_le_two_mul hwriter w
  · rw [Writer.length_lines_of_plain hwriter hoptimized,
      Writer.length_lines_of_plain hwriter hmerged, Patch.optimize_def, Patch.allWrites_realignAll]
    exact Writer.linesOf_realignAll_le hwriter _

def looseWrites : List Patch :=
  [.block [.write ⟨1, [0xAB, 0xAB, 0xAB]⟩, .group [.write ⟨4, [0xCD]⟩]]]

theorem length_lines_looseWrites :
    Patch.allPlain looseWrites = true ∧ (Writer.gecko {}).dialect ≠ .bytes ∧
      ((Writer.gecko {}).write looseWrites).lines.length = 2 ∧
      ((Writer.gecko {}).write (Patch.optimize looseWrites)).lines.length ≤ 2 + 1 := by
  have hlines : ((Writer.gecko {}).write looseWrites).lines.length = 2 := by decide +kernel
  have hsurcharge : ((Patch.allWrites looseWrites).map (Writer.gecko {}).surcharge).sum = 1 := by
    decide +kernel
  have hbound := (length_lines_optimize_le (.gecko {}) (by decide) looseWrites (by decide)).1
  rw [hlines, hsurcharge] at hbound
  exact ⟨by decide, by decide, hlines, hbound⟩

/-- Three equal bytes behind a word boundary are one line, and two once they are realigned. -/
theorem realigned_fill_costs_line :
    ((Writer.actionReplay.write [.write ⟨1, [0xAB, 0xAB, 0xAB]⟩]).lines.length = 1 ∧
        (Writer.actionReplay.write (Patch.optimize [.write ⟨1, [0xAB, 0xAB, 0xAB]⟩])).lines.length =
          2) ∧
      ((Writer.gecko {}).write [.write ⟨1, [0xAB, 0xAB, 0xAB]⟩]).lines.length = 1 ∧
        ((Writer.gecko {}).write (Patch.optimize [.write ⟨1, [0xAB, 0xAB, 0xAB]⟩])).lines.length =
          2 := by
  decide +kernel

def fillBeforeBulk : List Patch :=
  [.write ⟨0, List.replicate 4096 0⟩, .write ⟨4096, (List.range 64).map .ofNat⟩]

/-- Merged with the zeros the bytes are no longer stored in bulk, which costs all that the bulk
store saved. -/
theorem merged_bulk_costs_lines :
    ((Writer.gecko {}).write fillBeforeBulk).lines.length = 10 ∧
      ((Patch.allWrites fillBeforeBulk).map (Writer.gecko {}).surcharge).sum = 7 ∧
      ((Writer.gecko {}).write (Patch.optimize fillBeforeBulk)).lines.length = 17 := by
  decide +kernel

end PatchCode
