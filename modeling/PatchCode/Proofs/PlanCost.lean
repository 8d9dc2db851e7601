import Mathlib.Tactic
import PatchCode.Proofs.Reach

/-! The price of a plan: one for each record, and two for a loose one, which cannot stay one record
when what is in front of it or behind it changes. Prices are subadditive: the plan of joined bytes
is never dearer than the plans of its parts. At a word boundary the planner takes as much as it can,
so a plan that starts at a later one is not dearer, and everything else follows from that. -/

namespace PatchCode

namespace WriteRecord

/-- Stops off a word boundary with bytes that could have gone on to one: three equal bytes from an
odd address on, or an odd number of pairs. -/
def isLoose : WriteRecord → Bool
  | byte address _ count => count == 3 && address.toNat % 2 != 0
  | half _ _ count => count % 2 != 0 && count != 1
  | word .. => false

def price (r : WriteRecord) : Nat := if r.isLoose then 2 else 1

theorem price_pos (r : WriteRecord) : 1 ≤ r.price := by
  unfold price
  split_ifs <;> omega

theorem price_byte_three (a : Address) (value : UInt8) :
    (byte a value 3).price = if a.toNat % 2 = 0 then 1 else 2 := by
  by_cases h : a.toNat % 2 = 0 <;> simp [price, isLoose, h]

end WriteRecord

namespace Plan

def cost (limits : FillLimits) (a : Address) (bs : List UInt8) : Nat :=
  ((plan limits a bs).map WriteRecord.price).sum

variable (limits : FillLimits) {a : Address}

@[simp] theorem cost_nil : cost limits a [] = 0 := by simp [cost]

theorem cost_cons (x : UInt8) (xs : List UInt8) :
    cost limits a (x :: xs) = (next limits a x xs).price +
      cost limits (a.advance (next limits a x xs).size)
        ((x :: xs).drop (next limits a x xs).size) := by
  rw [cost, plan_cons, List.map_cons, List.sum_cons, cost]

theorem cost_pos {bs : List UInt8} (h : bs ≠ []) : 1 ≤ cost limits a bs := by
  obtain ⟨x, xs, rfl⟩ := List.exists_cons_of_ne_nil h
  rw [cost_cons]
  have := (next limits a x xs).price_pos
  omega

section Small

theorem cost_of_byte {x : UInt8} {xs : List UInt8} (h : next limits a x xs = .byte a x 1) :
    cost limits a (x :: xs) = 1 + cost limits (a.advance 1) xs := by
  rw [cost_cons, h]
  rfl

theorem cost_of_half {x y : UInt8} {xs : List UInt8}
    (h : next limits a x (y :: xs) = .half a (halfOf x y) 1) :
    cost limits a (x :: y :: xs) = 1 + cost limits (a.advance 2) xs := by
  rw [cost_cons, h]
  rfl

theorem cost_three {x y z : UInt8} (h : x = y ∧ y = z) :
    cost limits a [x, y, z] = if a.toNat % 2 = 0 then 1 else 2 := by
  rw [cost_cons, next, if_pos h, WriteRecord.price_byte_three]
  simp [WriteRecord.size]

theorem cost_single (x : UInt8) : cost limits a [x] = 1 := by
  rw [cost_of_byte limits rfl, cost_nil]

theorem pair_of_even (ha : a.toNat % 2 = 0) (x y : UInt8) :
    pair a x y = .half a (halfOf x y) 1 := by
  rw [pair, if_pos (Address.mod_two_eq_zero.mpr ha)]

theorem cost_pair (ha : a.toNat % 2 = 0) (x y : UInt8) : cost limits a [x, y] = 1 := by
  have hnext : next limits a x [y] = .half a (halfOf x y) 1 := pair_of_even ha x y
  rw [cost_of_half limits hnext, cost_nil]

/-- At an odd address the first byte is paid for alone, also by a loose record. -/
theorem cost_odd (ha : a.toNat % 2 = 1) (x : UInt8) (xs : List UInt8) :
    cost limits a (x :: xs) = 1 + cost limits (a.advance 1) xs := by
  have hodd : ¬ a % 2 = 0 := by
    rw [Address.mod_two_eq_zero]
    omega
  rcases xs with _ | ⟨y, _ | ⟨z, _ | ⟨w, rest⟩⟩⟩
  · exact cost_of_byte limits rfl
  · exact cost_of_byte limits (by rw [next, pair, if_neg hodd])
  · by_cases heq : x = y ∧ y = z
    · have heven : (a.advance 1).toNat % 2 = 0 := by
        have := a.advance_mod_four 1
        omega
      rw [cost_three limits heq, if_neg (by omega), cost_pair limits heven]
    · exact cost_of_byte limits (by rw [next, if_neg heq, pair, if_neg hodd])
  · exact cost_of_byte limits (by rw [next, body, if_pos hodd])

theorem cost_advance_odd {k : Nat} (hk : (a.toNat + k) % 2 = 1) (x : UInt8) (xs : List UInt8) :
    cost limits (a.advance k) (x :: xs) = 1 + cost limits (a.advance (k + 1)) xs := by
  have hmod := a.advance_mod_four k
  rw [cost_odd limits (by omega), Address.advance_advance]

/-- Half way between two word boundaries the first two bytes are paid for alone, but for three equal
bytes. -/
theorem cost_middle (ha : a.toNat % 4 = 2) (x y : UInt8) (xs : List UInt8) :
    cost limits a (x :: y :: xs) = 1 + cost limits (a.advance 2) xs ∨
      (xs.length = 1 ∧ cost limits a (x :: y :: xs) = 1) := by
  have heven : a.toNat % 2 = 0 := by omega
  have hmiddle : ¬ a % 4 = 0 := by
    rw [Address.mod_four_eq_zero]
    omega
  rcases xs with _ | ⟨z, _ | ⟨w, rest⟩⟩
  · exact .inl (cost_of_half limits (pair_of_even heven x y))
  · by_cases heq : x = y ∧ y = z
    · exact .inr ⟨rfl, by rw [cost_three limits heq, if_pos heven]⟩
    · exact .inl (cost_of_half limits (by rw [next, if_neg heq, pair_of_even heven]))
  · have hnot : ¬ a % 2 ≠ 0 := not_not.mpr (Address.mod_two_eq_zero.mpr heven)
    exact .inl (cost_of_half limits (by rw [next, body, if_neg hnot, if_pos hmiddle]))

theorem cost_le_of_middle (ha : a.toNat % 4 = 2) (x y : UInt8) (ys : List UInt8) :
    cost limits a (x :: y :: ys) ≤ 1 + cost limits (a.advance 2) ys := by
  rcases cost_middle limits ha x y ys with h | ⟨-, h⟩ <;> omega

theorem cost_le_two (ha : a.toNat % 2 = 0) {bs : List UInt8} (h : bs.length ≤ 3) :
    cost limits a bs ≤ 2 := by
  rcases bs with _ | ⟨x, _ | ⟨y, _ | ⟨z, _ | ⟨w, rest⟩⟩⟩⟩
  · simp
  · simp [cost_single]
  · simp [cost_pair limits ha]
  · by_cases heq : x = y ∧ y = z
    · simp [cost_three limits heq, ha]
    · have hfirst : next limits a x [y, z] = .half a (halfOf x y) 1 := by
        rw [next, if_neg heq, pair_of_even ha]
      rw [cost_of_half limits hfirst, cost_single]
  · simp only [List.length_cons] at h
    omega

end Small

section Word

variable {bs : List UInt8}

/-- The record at a word boundary covers what it reaches, and is loose if that ends off the next
one. -/
theorem next_word (ha : a.toNat % 4 = 0) (x y z w : UInt8) (rest : List UInt8) :
    (next limits a x (y :: z :: w :: rest)).size = reach limits (x :: y :: z :: w :: rest) ∧
      (next limits a x (y :: z :: w :: rest)).price =
        if reach limits (x :: y :: z :: w :: rest) % 4 = 0 then 1 else 2 := by
  have heven : a % 2 = 0 := Address.mod_two_eq_zero.mpr (by omega)
  have hword : a % 4 = 0 := Address.mod_four_eq_zero.mpr ha
  have hhalves : halfFill limits x y (z :: w :: rest) % 2 = 0 := (halfFill_spec limits x y _).1
  have hbytes : byteFill limits x (y :: z :: w :: rest) % 4 = 0 := by
    simp only [byteFill, wholeWords]
    split_ifs <;> omega
  have hreach : reach limits (x :: y :: z :: w :: rest) =
      if 4 ≤ byteFill limits x (y :: z :: w :: rest) then byteFill limits x (y :: z :: w :: rest)
      else if 4 < halfFill limits x y (z :: w :: rest) then halfFill limits x y (z :: w :: rest)
      else 4 := by
    rw [halfFill_eq]
    rfl
  rw [next, body, if_neg (not_not.mpr heven), if_neg (not_not.mpr hword), atWord, hreach]
  split_ifs <;> simp_all [WriteRecord.size, WriteRecord.price, WriteRecord.isLoose] <;> omega

/-- Only the last record of a plan can be loose. -/
theorem length_le_of_isLoose {x : UInt8} {xs : List UInt8}
    (h : (next limits a x xs).isLoose = true) :
    (x :: xs).length ≤ (next limits a x xs).size := by
  have hpair : ∀ y, (pair a x y).isLoose = false := by
    intro y
    unfold pair
    split_ifs <;> rfl
  rcases xs with _ | ⟨y, _ | ⟨z, _ | ⟨w, rest⟩⟩⟩
  · simp [next, WriteRecord.isLoose] at h
  · simp [next, hpair] at h
  · by_cases heq : x = y ∧ y = z
    · simp [next, heq, WriteRecord.size]
    · simp [next, heq, hpair] at h
  · by_cases hodd : a % 2 ≠ 0
    · simp [next, body, hodd, WriteRecord.isLoose] at h
    by_cases hword : a % 4 ≠ 0
    · simp [next, body, hodd, hword, WriteRecord.isLoose] at h
    obtain ⟨hsize, hprice⟩ :=
      next_word limits (Address.mod_four_eq_zero.mp (not_not.mp hword)) x y z w rest
    rw [WriteRecord.price, if_pos h] at hprice
    have hcases := reach_cases limits (by simp : 4 ≤ (x :: y :: z :: w :: rest).length)
    have hmod : reach limits (x :: y :: z :: w :: rest) % 4 ≠ 0 := by
      intro hmod
      rw [if_pos hmod] at hprice
      omega
    rw [hsize]
    omega

theorem next_of_four_le (ha : a.toNat % 4 = 0) {x : UInt8} {xs : List UInt8}
    (h4 : 4 ≤ (x :: xs).length) :
    (next limits a x xs).size = reach limits (x :: xs) ∧
      (next limits a x xs).price = if reach limits (x :: xs) % 4 = 0 then 1 else 2 := by
  rcases xs with _ | ⟨y, _ | ⟨z, _ | ⟨w, rest⟩⟩⟩
  · simp at h4
  · simp at h4
  · simp at h4
  · exact next_word limits ha x y z w rest

theorem cost_word (ha : a.toNat % 4 = 0) (h4 : 4 ≤ bs.length) :
    cost limits a bs = (if reach limits bs % 4 = 0 then 1 else 2) +
      cost limits (a.advance (reach limits bs)) (bs.drop (reach limits bs)) := by
  rcases bs with _ | ⟨x, xs⟩
  · simp at h4
  obtain ⟨hsize, hprice⟩ := next_of_four_le limits ha h4
  rw [cost_cons, hsize, hprice]

/-- A step from a word boundary goes to another one for a price of one, or to the end for a price of
two. -/
theorem cost_step (ha : a.toNat % 4 = 0) (h4 : 4 ≤ bs.length) :
    (reach limits bs % 4 = 0 ∧ 4 ≤ reach limits bs ∧ reach limits bs ≤ bs.length ∧
        cost limits a bs =
          1 + cost limits (a.advance (reach limits bs)) (bs.drop (reach limits bs))) ∨
      (reach limits bs = bs.length ∧ bs.length % 4 = 2 ∧ 6 ≤ bs.length ∧ cost limits a bs = 2) := by
  have hcost := cost_word limits ha h4
  rcases reach_cases limits h4 with ⟨hmod, hpos, hle⟩ | ⟨hmod, hall, h6⟩
  · rw [if_pos hmod] at hcost
    exact .inl ⟨hmod, hpos, hle, hcost⟩
  · rw [if_neg (by omega), hall, List.drop_length, cost_nil] at hcost
    exact .inr ⟨hall, by omega, h6, hcost⟩

end Word

/-- A plan costs its records and one more if it has a loose one. -/
theorem cost_eq (bs : List UInt8) :
    cost limits a bs =
      (plan limits a bs).length + ((plan limits a bs).any WriteRecord.isLoose).toNat := by
  induction hn : bs.length using Nat.strongRecOn generalizing a bs with
  | _ n ih =>
    rcases bs with _ | ⟨x, xs⟩
    · simp
    have hpos := size_next_pos limits a x xs
    rw [cost_cons, plan_cons, List.length_cons, List.any_cons]
    by_cases hloose : (next limits a x xs).isLoose = true
    · rw [List.drop_eq_nil_of_le (length_le_of_isLoose limits hloose)]
      simp [hloose, WriteRecord.price]
    · rw [Bool.not_eq_true] at hloose
      rw [ih _ (by rw [← hn, List.length_drop, List.length_cons]; omega) _ rfl, hloose,
        Bool.false_or, WriteRecord.price, hloose]
      simp only [Bool.false_eq_true, if_false]
      omega

section Later

variable {bs : List UInt8} {k : Nat}

theorem cost_drop_le_of_word (ha : a.toNat % 4 = 0) (hk : k % 4 = 0) :
    cost limits (a.advance k) (bs.drop k) ≤ cost limits a bs := by
  induction hn : bs.length using Nat.strongRecOn generalizing a bs k with
  | _ n ih =>
    subst hn
    by_cases hend : bs.length ≤ k
    · rw [List.drop_eq_nil_of_le hend, cost_nil]
      exact Nat.zero_le _
    by_cases hzero : k = 0
    · rw [hzero, Address.advance_zero, List.drop_zero]
    have hlength : (bs.drop k).length = bs.length - k := List.length_drop
    have hboundary : (a.advance k).toNat % 4 = 0 := by
      rw [Address.advance_mod_four]
      omega
    rcases cost_step limits ha (by omega : 4 ≤ bs.length) with ⟨hmod, hpos, hle, hcost⟩ |
      ⟨hall, hmod, h6, hcost⟩
    · -- From where the first record stops, starting at any later word boundary is not dearer.
      have hlater : ∀ m, reach limits bs ≤ m → m % 4 = 0 → cost limits (a.advance m) (bs.drop m) ≤
          cost limits (a.advance (reach limits bs)) (bs.drop (reach limits bs)) := by
        intro m hm hm4
        obtain ⟨j, rfl⟩ := Nat.exists_eq_add_of_le hm
        rw [← Address.advance_advance, ← List.drop_drop]
        refine ih _ ?_ ?_ (by omega) rfl
        · rw [List.length_drop]
          omega
        · rw [Address.advance_mod_four]
          omega
      by_cases hreach : reach limits bs ≤ k
      · have := hlater k hreach hk
        omega
      have hfar := reach_le_drop limits hk (by omega) (by omega : k + 4 ≤ bs.length)
      rcases cost_step limits hboundary (by omega : 4 ≤ (bs.drop k).length) with
        ⟨hmod', -, -, hcost'⟩ | ⟨-, hmod', -, hcost'⟩
      · have := hlater _ hfar (by omega)
        rw [← Address.advance_advance, ← List.drop_drop] at this
        omega
      · -- A loose end is two off a word boundary, so the first record leaves something.
        have hleft : bs.drop (reach limits bs) ≠ [] := by
          rw [Ne, List.drop_eq_nil_iff]
          omega
        have : 1 ≤ cost limits (a.advance (reach limits bs)) _ := cost_pos limits hleft
        omega
    · by_cases h4 : 4 ≤ (bs.drop k).length
      · have hfar := reach_le_drop limits hk (by omega) (by omega : k + 4 ≤ bs.length)
        rcases cost_step limits hboundary h4 with ⟨-, -, hle', hcost'⟩ | ⟨-, -, -, hcost'⟩
        · have hnil : (bs.drop k).drop (reach limits (bs.drop k)) = [] :=
            List.drop_eq_nil_of_le (by omega)
          rw [hnil, cost_nil] at hcost'
          omega
        · omega
      · have :=
          cost_le_two limits (by omega : (a.advance k).toNat % 2 = 0)
            (by omega : (bs.drop k).length ≤ 3)
        omega

theorem cost_drop_le_of_even (ha : a.toNat % 2 = 0) (hk : (a.toNat + k) % 4 = 0) :
    cost limits (a.advance k) (bs.drop k) ≤ cost limits a bs := by
  by_cases hword : a.toNat % 4 = 0
  · exact cost_drop_le_of_word limits hword (by omega)
  obtain ⟨k, rfl⟩ : ∃ j, k = 2 + j := ⟨k - 2, by omega⟩
  rcases bs with _ | ⟨x, _ | ⟨y, ys⟩⟩
  · simp
  · rw [List.drop_eq_nil_of_le (by simp; omega), cost_nil]
    exact Nat.zero_le _
  rw [← Address.advance_advance, ← List.drop_drop]
  have hboundary := a.advance_mod_four 2
  have hlater : cost limits ((a.advance 2).advance k) (ys.drop k) ≤ cost limits (a.advance 2) ys :=
    cost_drop_le_of_word limits (by omega) (by omega)
  refine hlater.trans ?_
  rcases cost_middle limits (by omega : a.toNat % 4 = 2) x y ys with hcost | ⟨hone, hcost⟩
  · omega
  · obtain ⟨z, rfl⟩ := List.length_eq_one_iff.mp hone
    rw [hcost, cost_single]

/-- Starting later, at a word boundary, is not dearer. -/
theorem cost_drop_le (hk : (a.toNat + k) % 4 = 0) :
    cost limits (a.advance k) (bs.drop k) ≤ cost limits a bs := by
  by_cases heven : a.toNat % 2 = 0
  · exact cost_drop_le_of_even limits heven hk
  obtain ⟨k, rfl⟩ : ∃ j, k = 1 + j := ⟨k - 1, by omega⟩
  rcases bs with _ | ⟨x, xs⟩
  · simp
  have hnext := a.advance_mod_four 1
  rw [cost_odd limits (by omega), ← Address.advance_advance, ← List.drop_drop]
  have hlater : cost limits ((a.advance 1).advance k) (xs.drop k) ≤ cost limits (a.advance 1) xs :=
    cost_drop_le_of_even limits (by omega) (by omega)
  exact hlater.trans (Nat.le_add_left _ 1)

end Later

section Joined

/-- The first word costs no more than a record of its own. -/
theorem cost_le_of_word (ha : a.toNat % 4 = 0) {bs : List UInt8} (h4 : 4 ≤ bs.length) :
    cost limits a bs ≤ 1 + cost limits (a.advance 4) (bs.drop 4) := by
  rcases cost_step limits ha h4 with ⟨hmod, hpos, -, hcost⟩ | ⟨-, -, h6, hcost⟩
  · obtain ⟨j, hj⟩ := Nat.exists_eq_add_of_le hpos
    have hboundary := a.advance_mod_four 4
    have hlater : cost limits ((a.advance 4).advance j) ((bs.drop 4).drop j) ≤
        cost limits (a.advance 4) (bs.drop 4) :=
      cost_drop_le_of_word limits (by omega) (by omega)
    rw [Address.advance_advance, List.drop_drop, ← hj] at hlater
    omega
  · have hleft : bs.drop 4 ≠ [] := by
      rw [Ne, List.drop_eq_nil_iff]
      omega
    have : 1 ≤ cost limits (a.advance 4) (bs.drop 4) := cost_pos limits hleft
    omega

/-- Nor do the first two bytes at a word boundary. -/
theorem cost_le_of_pair (ha : a.toNat % 4 = 0) (x y : UInt8) (ys : List UInt8) :
    cost limits a (x :: y :: ys) ≤ 1 + cost limits (a.advance 2) ys := by
  rcases ys with _ | ⟨z, _ | ⟨w, rest⟩⟩
  · rw [cost_pair limits (by omega)]
    omega
  · rw [cost_single]
    exact cost_le_two limits (by omega) (by simp)
  · have hword : cost limits a (x :: y :: z :: w :: rest) ≤ 1 + cost limits (a.advance 4) rest :=
      cost_le_of_word limits ha (by simp)
    have hmiddle := a.advance_mod_four 2
    have hrest : cost limits (a.advance 4) rest ≤ cost limits (a.advance 2) (z :: w :: rest) := by
      rcases cost_middle limits (by omega : (a.advance 2).toNat % 4 = 2) z w rest with hcost |
        ⟨hone, hcost⟩
      · have hfour : (a.advance 2).advance 2 = a.advance 4 := Address.advance_advance a 2 2
        rw [hfour] at hcost
        omega
      · obtain ⟨v, rfl⟩ := List.length_eq_one_iff.mp hone
        rw [hcost, cost_single]
    omega

/-- One byte at a word boundary is paid for by what follows it. -/
theorem cost_le_of_first (ha : a.toNat % 4 = 0) (x : UInt8) {ys : List UInt8} (hys : ys ≠ []) :
    cost limits a (x :: ys) ≤ cost limits (a.advance 1) ys := by
  obtain ⟨y, ys, rfl⟩ := List.exists_cons_of_ne_nil hys
  rw [cost_advance_odd limits (by omega) y ys]
  exact cost_le_of_pair limits ha x y ys

variable {xs ys : List UInt8}

/-- If joining them does not shorten the first record, the first part pays for all records that
start in it. -/
theorem cost_append_le_of_reach (ha : a.toNat % 4 = 0) (h4 : 4 ≤ xs.length) {s : Nat}
    (hs : s % 4 = 0) (hlt : s < xs.length) (hreach : reach limits xs ≤ s) :
    1 + cost limits (a.advance s) (xs.drop s) ≤ cost limits a xs := by
  rcases cost_step limits ha h4 with ⟨hmod, -, -, hcost⟩ | ⟨hall, -, -, -⟩
  · obtain ⟨j, rfl⟩ := Nat.exists_eq_add_of_le hreach
    have hboundary := a.advance_mod_four (reach limits xs)
    have hlater : cost limits ((a.advance (reach limits xs)).advance j)
        ((xs.drop (reach limits xs)).drop j) ≤
        cost limits (a.advance (reach limits xs)) (xs.drop (reach limits xs)) :=
      cost_drop_le_of_word limits (by omega) (by omega)
    rw [Address.advance_advance, List.drop_drop] at hlater
    omega
  · omega

theorem cost_append_le_of_word (ha : a.toNat % 4 = 0) (h4 : 4 ≤ xs.length) (hys : ys ≠ [])
    (ih : ∀ {zs : List UInt8} {b : Address}, zs.length < xs.length →
      cost limits b (zs ++ ys) ≤ cost limits b zs + cost limits (b.advance zs.length) ys) :
    cost limits a (xs ++ ys) ≤ cost limits a xs + cost limits (a.advance xs.length) ys := by
  have hlength : (xs ++ ys).length = xs.length + ys.length := List.length_append
  have hxs : 1 ≤ cost limits a xs := cost_pos limits (by rintro rfl; simp at h4)
  have hrest : 1 ≤ cost limits (a.advance xs.length) ys := cost_pos limits hys
  have hmore := reach_le_append limits h4 ys
  rcases cost_step limits ha (by omega : 4 ≤ (xs ++ ys).length) with ⟨hmod, hpos, hle, hcost⟩ |
    ⟨-, -, -, hcost⟩
  swap
  · omega
  generalize reach limits (xs ++ ys) = s at *
  have hboundary := a.advance_mod_four s
  by_cases hfar : xs.length ≤ s
  · -- The first record goes beyond the first part.
    obtain ⟨j, rfl⟩ := Nat.exists_eq_add_of_le hfar
    have hstop := a.advance_mod_four xs.length
    have hlater : cost limits ((a.advance xs.length).advance j) (ys.drop j) ≤
        cost limits (a.advance xs.length) ys :=
      cost_drop_le limits (by omega)
    rw [Address.advance_advance] at hlater
    rw [← List.drop_drop, List.drop_left] at hcost
    omega
  rw [List.drop_append_of_le_length (by omega)] at hcost
  have hsplit : (a.advance s).advance (xs.drop s).length = a.advance xs.length := by
    rw [Address.advance_advance, List.length_drop, Nat.add_sub_cancel' (by omega)]
  rcases hmore with hreach | ⟨hloose, hreach⟩
  · have hparts := @ih (xs.drop s) (a.advance s) (by rw [List.length_drop]; omega)
    have hfirst := cost_append_le_of_reach limits ha h4 hmod (by omega) hreach
    rw [hsplit] at hparts
    omega
  · -- The first part ends in a loose record, whose last pair is now left over.
    rcases cost_step limits ha h4 with ⟨hmod', -, -, -⟩ | ⟨hall, -, -, hcost'⟩
    · omega
    obtain ⟨x, y, hpair⟩ : ∃ x y, xs.drop s = [x, y] := by
      rw [← List.length_eq_two, List.length_drop]
      omega
    have htwo := cost_le_of_pair limits (by omega : (a.advance s).toNat % 4 = 0) x y ys
    rw [hpair] at hsplit hcost
    have hstop : (a.advance s).advance 2 = a.advance xs.length := hsplit
    rw [hstop] at htwo
    rw [List.cons_append, List.singleton_append] at hcost
    omega

/-- Joined bytes are not dearer than their parts. -/
theorem cost_append_le (xs ys : List UInt8) :
    cost limits a (xs ++ ys) ≤ cost limits a xs + cost limits (a.advance xs.length) ys := by
  rcases eq_or_ne ys [] with rfl | hys
  · simp
  -- On the length of the first part: off a word boundary one record goes to the next address that
  -- is better, and at one the first record of the joined bytes is compared with the first record of
  -- the part.
  induction hn : xs.length using Nat.strongRecOn generalizing a xs with
  | _ n ih =>
    subst hn
    have hparts : ∀ {zs : List UInt8} {b : Address}, zs.length < xs.length →
        cost limits b (zs ++ ys) ≤ cost limits b zs + cost limits (b.advance zs.length) ys :=
      fun h => ih _ h _ rfl
    obtain ⟨y, rest, rfl⟩ := List.exists_cons_of_ne_nil hys
    rcases xs with _ | ⟨x, xs⟩
    · simp [Address.advance_zero]
    have hmiddle := a.advance_mod_four 2
    by_cases hodd : a.toNat % 2 = 1
    · have := @hparts xs (a.advance 1) (by simp)
      rw [Address.advance_advance, Nat.add_comm 1] at this
      rw [List.cons_append, cost_odd limits hodd, cost_odd limits hodd, List.length_cons]
      omega
    by_cases hword : a.toNat % 4 = 0
    · rcases xs with _ | ⟨x', _ | ⟨z, _ | ⟨w, xs⟩⟩⟩
      · exact (cost_le_of_first limits hword x hys).trans (Nat.le_add_left _ _)
      · rw [cost_pair limits (by omega)]
        exact cost_le_of_pair limits hword x x' _
      · have hmerged : cost limits a (x :: x' :: z :: y :: rest) ≤
            1 + cost limits (a.advance 4) rest :=
          cost_le_of_word limits hword (by simp)
        have hrest := cost_advance_odd limits (by omega : (a.toNat + 3) % 2 = 1) y rest
        exact (hmerged.trans hrest.ge).trans (Nat.le_add_left _ _)
      · exact cost_append_le_of_word limits hword (by simp) hys hparts
    · rcases xs with _ | ⟨x', xs⟩
      · have hrest := cost_advance_odd limits (by omega : (a.toNat + 1) % 2 = 1) y rest
        have hmerged := cost_le_of_middle limits (by omega : a.toNat % 4 = 2) x y rest
        exact (hmerged.trans hrest.ge).trans (Nat.le_add_left _ _)
      · have hmerged := cost_le_of_middle limits (by omega : a.toNat % 4 = 2) x x' (xs ++ y :: rest)
        have hstop : (a.advance 2).advance xs.length = a.advance (xs.length + 1 + 1) := by
          rw [Address.advance_advance, Nat.add_comm 2]
        rw [List.cons_append, List.cons_append, List.length_cons, List.length_cons, ← hstop]
        rcases cost_middle limits (by omega : a.toNat % 4 = 2) x x' xs with hcost | ⟨hsingle, hcost⟩
        · have := @hparts xs (a.advance 2) (by simp)
          omega
        · obtain ⟨z, rfl⟩ := List.length_eq_one_iff.mp hsingle
          have hthird : cost limits (a.advance 2) ([z] ++ y :: rest) ≤
              cost limits ((a.advance 2).advance 1) (y :: rest) :=
            cost_le_of_first limits (by omega) z hys
          rw [List.length_singleton]
          omega

end Joined

section Bound

/-- From a word boundary on no plan has more than the records of a plan without fills. -/
theorem cost_le_words (ha : a.toNat % 4 = 0) (bs : List UInt8) :
    cost limits a bs ≤ bs.length / 4 + (bs.length % 4 + 1) / 2 := by
  induction hn : bs.length using Nat.strongRecOn generalizing a bs with
  | _ n ih =>
    subst hn
    by_cases h4 : 4 ≤ bs.length
    · have hboundary := a.advance_mod_four 4
      have hrest :=
        ih (bs.drop 4).length (by rw [List.length_drop]; omega) (a := a.advance 4) (by omega) _ rfl
      have hfirst := cost_le_of_word limits ha h4
      rw [List.length_drop] at hrest
      omega
    · rcases bs with _ | ⟨x, _ | ⟨y, _ | ⟨z, _ | ⟨w, rest⟩⟩⟩⟩
      · simp
      · simp [cost_single]
      · simp [cost_pair limits (by omega : a.toNat % 2 = 0)]
      · have hthree : cost limits a [x, y, z] ≤ 2 := cost_le_two limits (by omega) (by simp)
        simpa using hthree
      · simp at h4

theorem cost_le_of_even (ha : a.toNat % 2 = 0) (bs : List UInt8) :
    cost limits a bs ≤ if a.toNat % 4 = 0 then bs.length / 4 + (bs.length % 4 + 1) / 2
      else 1 + (bs.length - 2) / 4 + ((bs.length - 2) % 4 + 1) / 2 := by
  split_ifs with hword
  · exact cost_le_words limits hword bs
  rcases bs with _ | ⟨x, _ | ⟨y, ys⟩⟩
  · simp
  · simp [cost_single]
  have hboundary := a.advance_mod_four 2
  have hfirst := cost_le_of_middle limits (by omega : a.toNat % 4 = 2) x y ys
  have hrest := cost_le_words limits (by omega : (a.advance 2).toNat % 4 = 0) ys
  simp only [List.length_cons]
  omega

end Bound

end Plan

end PatchCode
