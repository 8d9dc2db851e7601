import Mathlib.Tactic
import PatchCode.Proofs.PlanCost

/-! Fills stand for whole records. A plan without fills has words and the records at the ends of a
write only; with fills, each record covers what one or more of those cover, so there are never more
of them. -/

namespace PatchCode

def FillLimits.noFills : FillLimits := ⟨0, 0⟩

namespace Plan

/-- Each of the first records stores what one or more of the second store, in order and from the
same address on. -/
inductive Coarsens : List WriteRecord → List WriteRecord → Prop
  | nil : Coarsens [] []
  | cons {r s : WriteRecord} {group coarse fine : List WriteRecord}
      (address_eq : s.address = r.address)
      (bytes_eq : (s :: group).flatMap WriteRecord.bytes = r.bytes) (rest : Coarsens coarse fine) :
      Coarsens (r :: coarse) (s :: group ++ fine)

theorem Coarsens.length_le {coarse fine : List WriteRecord} (h : Coarsens coarse fine) :
    coarse.length ≤ fine.length := by
  induction h with
  | nil => exact le_rfl
  | cons _ _ _ ih =>
    rw [List.length_append, List.length_cons, List.length_cons]
    omega

variable (limits : FillLimits) {a : Address}

/-- Off a word boundary, and for the last bytes, there are no fills whatever the limits are. -/
theorem next_eq_next {x : UInt8} {xs : List UInt8} (h : ¬(a.toNat % 4 = 0 ∧ 4 ≤ (x :: xs).length))
    (limits' : FillLimits) : next limits a x xs = next limits' a x xs := by
  rcases xs with _ | ⟨y, _ | ⟨z, _ | ⟨w, rest⟩⟩⟩
  · rfl
  · rfl
  · rfl
  have hword : a % 4 ≠ 0 := by
    rw [Ne, Address.mod_four_eq_zero]
    exact fun hword => h ⟨hword, by simp⟩
  rw [next, next, body, body, if_pos hword, if_pos hword]

theorem next_noFills (ha : a.toNat % 4 = 0) (x y z w : UInt8) (rest : List UInt8) :
    next .noFills a x (y :: z :: w :: rest) = .word a (wordOf x y z w) := by
  have heven : a % 2 = 0 := Address.mod_two_eq_zero.mpr (by omega)
  have hword : a % 4 = 0 := Address.mod_four_eq_zero.mpr ha
  have hbytes : byteFill .noFills x (y :: z :: w :: rest) = 0 := by
    simp [byteFill, FillLimits.noFills, wholeWords]
  have hhalves : halfFill .noFills x y (z :: w :: rest) = 0 := by
    have := (halfFill_spec .noFills x y (z :: w :: rest)).2.1
    simpa [FillLimits.noFills] using this
  rw [next, body, if_neg (not_not.mpr heven), if_neg (not_not.mpr hword), hbytes, hhalves]
  rfl

/-- Whole words are planned apart from what follows. -/
theorem plan_noFills_append (ha : a.toNat % 4 = 0) {xs : List UInt8} (hxs : xs.length % 4 = 0)
    (ys : List UInt8) :
    plan .noFills a (xs ++ ys) = plan .noFills a xs ++ plan .noFills (a.advance xs.length) ys := by
  induction hn : xs.length using Nat.strongRecOn generalizing a xs with
  | _ n ih =>
    subst hn
    rcases xs with _ | ⟨x, _ | ⟨y, _ | ⟨z, _ | ⟨w, xs⟩⟩⟩⟩
    · simp [Address.advance_zero]
    · simp at hxs
    · simp at hxs
    · simp at hxs
    have hrest : xs.length % 4 = 0 := by
      simp only [List.length_cons] at hxs
      omega
    have hboundary := a.advance_mod_four 4
    have hstop : (a.advance 4).advance xs.length = a.advance (x :: y :: z :: w :: xs).length := by
      rw [Address.advance_advance, Nat.add_comm 4]
      rfl
    have happend :=
      ih xs.length (by simp only [List.length_cons]; omega) (a := a.advance 4) (by omega) hrest rfl
    rw [hstop] at happend
    simp only [List.cons_append, plan_cons, next_noFills ha, WriteRecord.size, List.drop_succ_cons,
      List.drop_zero, happend]

/-- At a word boundary a record covers whole words, or all there is. -/
theorem plan_noFills_split (ha : a.toNat % 4 = 0) {x : UInt8} {xs : List UInt8}
    (h4 : 4 ≤ (x :: xs).length) :
    plan .noFills a (x :: xs) =
      plan .noFills a ((x :: xs).take (next limits a x xs).size) ++
        plan .noFills (a.advance (next limits a x xs).size)
          ((x :: xs).drop (next limits a x xs).size) := by
  rw [(next_of_four_le limits ha h4).1]
  rcases reach_cases limits h4 with ⟨hmod, -, hle⟩ | ⟨-, hall, -⟩
  · have hlength := List.length_take_of_le hle
    have happend :=
      plan_noFills_append ha (by rw [hlength]; exact hmod) ((x :: xs).drop (reach limits (x :: xs)))
    rwa [List.take_append_drop, hlength] at happend
  · rw [hall, List.take_length, List.drop_length, plan_nil, List.append_nil]

theorem coarsens_plan (a : Address) (bs : List UInt8) :
    Coarsens (plan limits a bs) (plan .noFills a bs) := by
  induction hn : bs.length using Nat.strongRecOn generalizing a bs with
  | _ n ih =>
    subst hn
    rcases bs with _ | ⟨x, xs⟩
    · rw [plan_nil, plan_nil]
      exact .nil
    have hpos := size_next_pos limits a x xs
    have hrest := ih ((x :: xs).drop (next limits a x xs).size).length (by simp; omega)
      (a.advance (next limits a x xs).size) _ rfl
    rw [plan_cons limits]
    by_cases hword : a.toNat % 4 = 0 ∧ 4 ≤ (x :: xs).length
    · -- The record stands for the plan of the bytes that it covers.
      have hcovers := covers_next limits a x xs
      have hfront : (x :: xs).take (next limits a x xs).size = (next limits a x xs).bytes := by
        conv_lhs => rw [← hcovers.append_drop, ← (next limits a x xs).length_bytes, List.take_left]
      obtain ⟨y, ys, hys⟩ : ∃ y ys, (next limits a x xs).bytes = y :: ys := by
        apply List.exists_cons_of_length_pos
        rwa [(next limits a x xs).length_bytes]
      have hgroup := (planned_plan .noFills a (y :: ys)).bytes.trans hys.symm
      rw [plan_cons] at hgroup
      rw [plan_noFills_split limits hword.1 hword.2, hfront, hys, plan_cons .noFills a y]
      exact .cons ((covers_next .noFills a y ys).address_eq.trans hcovers.address_eq.symm)
        hgroup hrest
    · have hbytes : [next limits a x xs].flatMap WriteRecord.bytes = (next limits a x xs).bytes :=
        List.flatMap_singleton _ _
      rw [plan_cons .noFills, ← next_eq_next limits hword .noFills]
      exact .cons rfl hbytes hrest

end Plan

namespace Write

/-- With fills there are at most as many records as with words and the records at the ends of a
write alone: each one stands for one or more of those. -/
theorem plan_fills (w : Write) (limits : FillLimits) :
    (w.plan limits).length ≤ (w.plan .noFills).length ∧
    Plan.Coarsens (w.plan limits) (w.plan .noFills) ∧
      ∀ r ∈ w.plan .noFills, r.size ≤ 4 := by
  have hcoarsens : Plan.Coarsens (w.plan limits) (w.plan .noFills) :=
    Plan.coarsens_plan limits w.address w.bytes
  refine ⟨hcoarsens.length_le, hcoarsens, fun r hr => ?_⟩
  have hlegal := ((w.plan_planned .noFills).legal r hr).1
  cases r with
  | byte address value count =>
    have hcount : count ≤ max 0 3 := hlegal.2
    exact hcount.trans (by decide)
  | half address value count =>
    have hcount : count ≤ max 0 1 := hlegal.2.2
    exact (Nat.mul_le_mul_left 2 hcount).trans (by decide)
  | word address value => exact le_rfl

def elevenBytes : Write := ⟨0x100, List.replicate 11 0xEE⟩

/-- Two fills in place of two words and three bytes. -/
theorem plan_elevenBytes :
    elevenBytes.plan ⟨0xFF, 0xFF⟩ = [.byte 0x100 0xEE 8, .byte 0x108 0xEE 3] ∧
      elevenBytes.plan .noFills =
        [.word 0x100 0xEEEEEEEE, .word 0x104 0xEEEEEEEE, .byte 0x108 0xEE 3] ∧
      (elevenBytes.plan ⟨0xFF, 0xFF⟩).length ≤ (elevenBytes.plan .noFills).length ∧
      .word 0x104 0xEEEEEEEE ∈ elevenBytes.plan .noFills ∧
      (WriteRecord.word 0x104 0xEEEEEEEE).size ≤ 4 := by
  have hplain : elevenBytes.plan .noFills =
      [.word 0x100 0xEEEEEEEE, .word 0x104 0xEEEEEEEE, .byte 0x108 0xEE 3] := by
    decide +kernel
  have hmem : .word 0x104 0xEEEEEEEE ∈ elevenBytes.plan .noFills := by simp [hplain]
  obtain ⟨hle, -, hsize⟩ := plan_fills elevenBytes ⟨0xFF, 0xFF⟩
  exact ⟨by decide +kernel, hplain, hle, hmem, hsize _ hmem⟩

end Write

end PatchCode
