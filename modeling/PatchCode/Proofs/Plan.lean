import Mathlib.Data.List.TakeWhile
import Mathlib.Tactic
import PatchCode.Plan
import PatchCode.Proofs.Codec
import PatchCode.Proofs.Effects

/-! A plan stores exactly its payload: each record covers the front of what is left, within the
limits and on its natural boundary. -/

namespace PatchCode

namespace WriteRecord

/-- The counts are positive and within the limits, and records of two or four bytes stand on their
natural boundaries. The ends of a write need up to three bytes and single pairs whatever the limits
are. -/
def Legal (limits : FillLimits) : WriteRecord → Prop
  | byte _ _ count => 0 < count ∧ count ≤ max limits.maxBytes 3
  | half address _ count => address % 2 = 0 ∧ 0 < count ∧ count ≤ max limits.maxHalves 1
  | word address _ => address % 4 = 0

theorem length_bytes (r : WriteRecord) : r.bytes.length = r.size := by
  cases r with
  | byte => simp [bytes, size]
  | half => simp [bytes, size, mul_comm]
  | word => simp [bytes, size]

end WriteRecord

namespace Plan

theorem ofNat_halfOf (a b : UInt8) : Bytes.ofNat 2 (halfOf a b).toNat = [a, b] := by
  have hlt : Bytes.toNat [a, b] < 2 ^ 16 := by simpa using Bytes.toNat_lt [a, b]
  rw [halfOf, UInt16.toNat_ofNat_of_lt' hlt]
  exact Bytes.ofNat_toNat [a, b]

theorem ofNat_wordOf (a b c d : UInt8) : Bytes.ofNat 4 (wordOf a b c d).toNat = [a, b, c, d] := by
  have hlt : Bytes.toNat [a, b, c, d] < 2 ^ 32 := by simpa using Bytes.toNat_lt [a, b, c, d]
  rw [wordOf, UInt32.toNat_ofNat_of_lt' hlt]
  exact Bytes.ofNat_toNat [a, b, c, d]

structure Covers (limits : FillLimits) (address : Address) (payload : List UInt8)
    (r : WriteRecord) : Prop where
  address_eq : r.address = address
  legal : r.Legal limits
  front : r.bytes <+: payload

theorem Covers.append_drop {limits : FillLimits} {address : Address} {payload : List UInt8}
    {r : WriteRecord} (h : Covers limits address payload r) :
    r.bytes ++ payload.drop r.size = payload := by
  obtain ⟨rest, rfl⟩ := h.front
  rw [← r.length_bytes, List.drop_left]

variable (limits : FillLimits) (address : Address)

theorem covers_single (a : UInt8) (rest : List UInt8) :
    Covers limits address (a :: rest) (.byte address a 1) :=
  ⟨rfl, ⟨by decide, by omega⟩, ⟨rest, rfl⟩⟩

theorem covers_half {address : Address} (heven : address % 2 = 0) (a b : UInt8)
    (rest : List UInt8) :
    Covers limits address (a :: b :: rest) (.half address (halfOf a b) 1) :=
  ⟨rfl, ⟨heven, by decide, by omega⟩, ⟨rest, by simp [WriteRecord.bytes, ofNat_halfOf]⟩⟩

theorem covers_pair (a b : UInt8) (rest : List UInt8) :
    Covers limits address (a :: b :: rest) (pair address a b) := by
  unfold pair
  split_ifs with heven
  · exact covers_half limits heven a b rest
  · exact covers_single limits address a (b :: rest)

/-- The first byte and those equal to it behind it. -/
theorem replicate_run {a : UInt8} {rest : List UInt8} {n : Nat}
    (h : n ≤ (rest.takeWhile (· == a)).length + 1) : List.replicate n a <+: a :: rest := by
  have hrun : rest.takeWhile (· == a) = List.replicate (rest.takeWhile (· == a)).length a :=
    List.eq_replicate_of_mem fun b hb => by simpa using List.mem_takeWhile_imp hb
  have hfront : List.replicate ((rest.takeWhile (· == a)).length + 1) a <+: a :: rest := by
    rw [List.replicate_succ, ← hrun]
    exact List.prefix_cons_inj a |>.mpr (List.takeWhile_prefix _)
  refine List.IsPrefix.trans ?_ hfront
  exact ⟨List.replicate ((rest.takeWhile (· == a)).length + 1 - n) a, by
    rw [List.replicate_append_replicate, Nat.add_sub_cancel' h]⟩

def alternating (a b : UInt8) : Nat → List UInt8
  | 0 => []
  | n + 1 => a :: alternating b a n

theorem alternating_le {a b : UInt8} {m n : Nat} (h : m ≤ n) :
    alternating a b m <+: alternating a b n := by
  induction m generalizing a b n with
  | zero => exact List.nil_prefix
  | succ m ih =>
    obtain ⟨n, rfl⟩ : ∃ k, n = k + 1 := ⟨n - 1, by omega⟩
    exact List.prefix_cons_inj a |>.mpr (ih (by omega))

theorem flatten_replicate_pair (a b : UInt8) (n : Nat) :
    (List.replicate n [a, b]).flatten = alternating a b (2 * n) := by
  induction n with
  | zero => rfl
  | succ n ih => rw [List.replicate_succ, List.flatten_cons, ih]; rfl

theorem alternation_eq (a b : UInt8) (n : Nat) (cs : List UInt8) :
    alternation a b n cs = n + alternation a b 0 cs := by
  induction cs generalizing a b n with
  | nil => rfl
  | cons c cs ih =>
    unfold alternation
    split_ifs with h
    · rw [ih b a (n + 1), ih b a (0 + 1)]; omega
    · rfl

theorem alternating_alternation (a b : UInt8) (cs : List UInt8) :
    alternating a b (alternation a b 0 cs) <+: cs := by
  induction cs generalizing a b with
  | nil => exact List.nil_prefix
  | cons c cs ih =>
    unfold alternation
    split_ifs with h
    · subst h
      rw [alternation_eq, Nat.zero_add, Nat.add_comm]
      exact List.prefix_cons_inj c |>.mpr (ih b c)
    · exact List.nil_prefix

theorem halfFill_spec (a b : UInt8) (rest : List UInt8) :
    halfFill limits a b rest % 2 = 0 ∧ halfFill limits a b rest ≤ limits.maxHalves * 2 ∧
      halfFill limits a b rest ≤ alternation a b 0 rest + 2 := by
  have hrun := alternation_eq a b 2 rest
  simp only [halfFill, wholeWords]
  split_ifs <;> omega

theorem covers_byteFill {a : UInt8} {rest : List UInt8} (h : 4 ≤ byteFill limits a rest) :
    Covers limits address (a :: rest) (.byte address a (byteFill limits a rest)) := by
  have hle : byteFill limits a rest ≤ limits.maxBytes ∧
      byteFill limits a rest ≤ (rest.takeWhile (· == a)).length + 1 := by
    simp only [byteFill, wholeWords]
    split_ifs <;> omega
  exact ⟨rfl, ⟨by omega, by omega⟩, replicate_run hle.2⟩

theorem covers_halfFill {address : Address} (heven : address % 2 = 0) {a b : UInt8}
    {rest : List UInt8} (h : 4 < halfFill limits a b rest) :
    Covers limits address (a :: b :: rest)
      (.half address (halfOf a b) (halfFill limits a b rest / 2)) := by
  obtain ⟨hmod, hmax, hrun⟩ := halfFill_spec limits a b rest
  have hfront : alternating a b (alternation a b 0 rest + 2) <+: a :: b :: rest :=
    List.prefix_cons_inj a |>.mpr (List.prefix_cons_inj b |>.mpr (alternating_alternation a b rest))
  refine ⟨rfl, ⟨heven, by omega, by omega⟩, ?_⟩
  rw [WriteRecord.bytes, ofNat_halfOf, flatten_replicate_pair]
  exact (alternating_le (by omega)).trans hfront

theorem covers_body (a b c d : UInt8) (rest : List UInt8) :
    Covers limits address (a :: b :: c :: d :: rest) (body limits address a b c d rest) := by
  unfold body atWord
  split_ifs with hodd hhalf hbytes hhalves
  · exact covers_single limits address a _
  · exact covers_half limits (not_not.mp hodd) a b _
  · exact covers_byteFill limits address hbytes
  · exact covers_halfFill limits (not_not.mp hodd) hhalves
  · exact ⟨rfl, not_not.mp hhalf, ⟨rest, by simp [WriteRecord.bytes, ofNat_wordOf]⟩⟩

theorem covers_next (a : UInt8) (rest : List UInt8) :
    Covers limits address (a :: rest) (next limits address a rest) := by
  unfold next
  split
  · exact covers_single limits address a []
  · exact covers_pair limits address a _ []
  next b c =>
    split_ifs with h
    · obtain ⟨rfl, rfl⟩ := h
      exact ⟨rfl, ⟨by decide, by omega⟩, ⟨[], rfl⟩⟩
    · exact covers_pair limits address a b [c]
  · exact covers_body limits address a _ _ _ _

inductive Planned (limits : FillLimits) : Address → List UInt8 → List WriteRecord → Prop
  | nil (address : Address) : Planned limits address [] []
  | cons {address : Address} {payload : List UInt8} {r : WriteRecord} {records : List WriteRecord}
      (first : Covers limits address payload r)
      (rest : Planned limits (address.advance r.size) (payload.drop r.size) records) :
      Planned limits address payload (r :: records)

theorem planned_plan (bytes : List UInt8) :
    Planned limits address bytes (plan limits address bytes) := by
  induction h : bytes.length using Nat.strongRecOn generalizing address bytes with
  | _ n ih =>
    cases bytes with
    | nil => rw [plan_nil]; exact .nil address
    | cons a rest =>
      have hpos := size_next_pos limits address a rest
      rw [plan_cons]
      refine .cons (covers_next limits address a rest) (ih _ ?_ _ _ rfl)
      simp only [List.length_drop, List.length_cons] at h ⊢
      omega

variable {limits : FillLimits} {address : Address} {payload : List UInt8}
  {records : List WriteRecord}

theorem Planned.stores (h : Planned limits address payload records) :
    records.flatMap (fun r => Write.storesFrom r.address r.bytes) =
      Write.storesFrom address payload := by
  induction h with
  | nil => rfl
  | @cons address payload r records first _ ih =>
    have happ := Write.storesFrom_append address r.bytes (payload.drop r.size)
    rw [first.append_drop, r.length_bytes] at happ
    rw [List.flatMap_cons, first.address_eq, ih, happ]

theorem Planned.legal (h : Planned limits address payload records) :
    ∀ r ∈ records, r.Legal limits ∧ r.size ≤ payload.length := by
  induction h with
  | nil => simp
  | @cons address payload r records first _ ih =>
    intro s hs
    rcases List.mem_cons.mp hs with rfl | hs
    · exact ⟨first.legal, s.length_bytes ▸ first.front.length_le⟩
    · have := ih s hs
      rw [List.length_drop] at this
      exact ⟨this.1, by omega⟩

theorem Planned.bytes (h : Planned limits address payload records) :
    records.flatMap WriteRecord.bytes = payload := by
  induction h with
  | nil => rfl
  | cons first _ ih => rw [List.flatMap_cons, ih, first.append_drop]

/-- A record stands as far behind the start of the payload as there are bytes in the records before
it. -/
theorem Planned.place (h : Planned limits address payload records) {before after : List WriteRecord}
    {r : WriteRecord} (hr : records = before ++ r :: after) :
    r.address.toNat = (address.toNat + (before.flatMap WriteRecord.bytes).length) % 2 ^ 32 := by
  induction h generalizing before with
  | nil => simp at hr
  | @cons address payload s records first _ ih =>
    rcases before with _ | ⟨t, before⟩
    · obtain ⟨rfl, -⟩ := List.cons.inj hr
      rw [first.address_eq, List.flatMap_nil, List.length_nil, Nat.add_zero,
        Nat.mod_eq_of_lt address.toNat_lt]
    · obtain ⟨rfl, hrest⟩ := List.cons.inj hr
      rw [ih hrest, Address.toNat_advance, List.flatMap_cons, List.length_append, s.length_bytes]
      omega

end Plan

theorem WriteRecord.Legal.size_pos {limits : FillLimits} {r : WriteRecord} (h : r.Legal limits) :
    0 < r.size := by
  cases r with
  | byte => exact h.1
  | half => exact Nat.mul_pos two_pos h.2.1
  | word => exact four_pos

namespace Write

variable (w : Write) (limits : FillLimits)

theorem plan_planned : Plan.Planned limits w.address w.bytes (w.plan limits) :=
  Plan.planned_plan limits w.address w.bytes

/-- Every record covers a byte, so there are no more records than bytes. -/
theorem length_plan_le : (w.plan limits).length ≤ w.size := by
  have hpos : ∀ n ∈ (w.plan limits).map WriteRecord.size, 1 ≤ n := by
    intro n hn
    obtain ⟨r, hr, rfl⟩ := List.mem_map.mp hn
    exact ((w.plan_planned limits).legal r hr).1.size_pos
  calc
    (w.plan limits).length = ((w.plan limits).map WriteRecord.size).length :=
  (List.length_map _).symm
    _ ≤ ((w.plan limits).map WriteRecord.size).sum := List.length_le_sum_of_one_le _ hpos
    _ = ((w.plan limits).flatMap WriteRecord.bytes).length := by
      simp only [List.length_flatMap, WriteRecord.length_bytes]
    _ = w.size := by rw [(w.plan_planned limits).bytes, size]

/-- A plan stores the bytes of its write, each where it belongs, in records that all cover some of
them, stand on their natural boundaries and keep to limits that leave room for the ends of a
write. -/
theorem plan_exact :
    (∀ r ∈ w.plan limits, 0 < r.size ∧ r.bytes.length = r.size) ∧
      (w.plan limits).length ≤ w.size ∧
      (w.plan limits).flatMap WriteRecord.bytes = w.bytes ∧
      (∀ before r after, w.plan limits = before ++ r :: after →
        r.address.toNat = (w.address.toNat + (before.flatMap WriteRecord.bytes).length) % 2 ^ 32) ∧
      (∀ address value count, .half address value count ∈ w.plan limits → address.toNat % 2 = 0) ∧
      (∀ address value, .word address value ∈ w.plan limits → address.toNat % 4 = 0) ∧
      (3 ≤ limits.maxBytes → 1 ≤ limits.maxHalves →
        (∀ address value count, .byte address value count ∈ w.plan limits →
          count ≤ limits.maxBytes) ∧
          ∀ address value count, .half address value count ∈ w.plan limits →
          count ≤ limits.maxHalves) := by
  have hplanned := w.plan_planned limits
  have hlegal : ∀ r ∈ w.plan limits, r.Legal limits := fun r hr => (hplanned.legal r hr).1
  refine ⟨fun r hr => ⟨(hlegal r hr).size_pos, r.length_bytes⟩, w.length_plan_le limits,
    hplanned.bytes, fun before r after hr => hplanned.place hr, ?_, ?_,
    fun hbytes hhalves => ⟨?_, ?_⟩⟩
  · intro address value count hr
    exact Address.mod_two_eq_zero.mp (hlegal _ hr).1
  · intro address value hr
    exact Address.mod_four_eq_zero.mp (hlegal _ hr)
  · intro address value count hr
    have hcount := (hlegal _ hr).2
    rwa [max_eq_left hbytes] at hcount
  · intro address value count hr
    have hcount := (hlegal _ hr).2.2
    rwa [max_eq_left hhalves] at hcount

def wrappedRun : Write := ⟨0xFFFFFFFF, [9, 7, 7, 7, 7, 7, 7, 7, 7, 7, 7, 1, 2, 5, 6]⟩

theorem plan_wrappedRun :
    wrappedRun.plan ⟨8, 4⟩ =
        [.byte 0xFFFFFFFF 9 1, .byte 0 7 8] ++ .word 8 0x07070102 :: [.half 12 0x0506 1] ∧
      (8 : Address).toNat = (wrappedRun.address.toNat + 9) % 2 ^ 32 ∧ (8 : Address).toNat % 4 = 0 ∧
      (12 : Address).toNat % 2 = 0 ∧ (3 ≤ 8 ∧ 1 ≤ 4) ∧
      ∀ address value count, .byte address value count ∈ wrappedRun.plan ⟨8, 4⟩ → count ≤ 8 := by
  have hplan : wrappedRun.plan ⟨8, 4⟩ =
      [.byte 0xFFFFFFFF 9 1, .byte 0 7 8] ++ .word 8 0x07070102 :: [.half 12 0x0506 1] := by
        decide +kernel
  obtain ⟨-, -, -, hplace, hhalf, hword, hcounts⟩ := plan_exact wrappedRun ⟨8, 4⟩
  exact ⟨hplan, hplace _ _ _ hplan, hword 8 0x07070102 (by simp [hplan]),
    hhalf 12 0x0506 1 (by simp [hplan]), by decide, (hcounts (by decide) (by decide)).1⟩

end Write

end PatchCode
