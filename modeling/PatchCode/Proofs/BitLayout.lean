import Mathlib.Tactic

/-! Numbers that are laid out in slots. A layout is a list of slots, some of them fixed, and the
last slot holds the lowest bits. Reading a number by a layout gives the values of its free slots,
from which the number is known up to the width of the layout, and no number is read by two layouts
that ask for different values of the same bits. -/

namespace PatchCode

inductive Slot where
  | fixed (width value : Nat)
  | free (width : Nat)
  deriving Repr, DecidableEq

def Slot.width : Slot → Nat
  | fixed width _ | free width => width

def Slot.read : Slot → Nat → Option (List Nat)
  | fixed _ value, n => if n = value then some [] else none
  | free _, n => some [n]

/-- The most significant slot stands first. -/
abbrev Layout := List Slot

namespace Layout

def width (layout : Layout) : Nat := (layout.map Slot.width).sum

/-- The values in the free slots of a number, if its fixed slots hold what they should. -/
def read : Layout → Nat → Option (List Nat)
  | [], _ => some []
  | slot :: rest,
    n => do return (← slot.read (n / 2 ^ width rest % 2 ^ slot.width)) ++ (← read rest n)

@[simp] theorem width_nil : width [] = 0 := rfl

@[simp] theorem width_cons (slot : Slot) (rest : Layout) :
    width (slot :: rest) = slot.width + width rest := by
  simp [width]

@[simp] theorem width_append (front rest : Layout) :
    width (front ++ rest) = width front + width rest := by
  simp [width]

/-- The last slot holds the lowest bits. -/
theorem read_concat {slot : Slot} {low : Nat} (hlow : low < 2 ^ slot.width)
    (layout : Layout) (n : Nat) :
    read (layout ++ [slot]) (n * 2 ^ slot.width + low) = do
  return (← read layout n) ++ (← slot.read low) := by
  induction layout with
  | nil => cases h : slot.read low <;> simp [read, h, Nat.mod_eq_of_lt hlow]
  | cons first rest ih =>
    have hdiv : (n * 2 ^ slot.width + low) / 2 ^ width (rest ++ [slot]) = n / 2 ^ width rest := by
      rw [width_append, width_cons, width_nil, add_zero, Nat.pow_add',
        ← Nat.div_div_eq_div_mul, mul_comm n, Nat.mul_add_div (by positivity),
        Nat.div_eq_of_lt hlow, add_zero]
    rw [List.cons_append, read, hdiv, ih, read]
    cases first.read (n / 2 ^ width rest % 2 ^ first.width) <;> cases read rest n <;>
      cases slot.read low <;> simp

theorem toNat_append {v w : Nat} (x : BitVec v) (y : BitVec w) :
    (x ++ y).toNat = x.toNat * 2 ^ w + y.toNat := by
  rw [BitVec.toNat_append, Nat.shiftLeft_eq, mul_comm, ← Nat.two_pow_add_eq_or_of_lt y.isLt]

theorem read_append_fixed {v w : Nat} (layout : Layout) (x : BitVec v) (y : BitVec w) :
    read (layout ++ [.fixed w y.toNat]) (x ++ y).toNat = read layout x.toNat := by
  rw [toNat_append]
  refine (@read_concat (.fixed w y.toNat) _ y.isLt layout x.toNat).trans ?_
  cases read layout x.toNat <;> simp [Slot.read]

theorem read_append_free {v w : Nat} (layout : Layout) (x : BitVec v) (y : BitVec w) :
    read (layout ++ [.free w]) (x ++ y).toNat = (read layout x.toNat).map (· ++ [y.toNat]) := by
  rw [toNat_append]
  refine (@read_concat (.free w) _ y.isLt layout x.toNat).trans ?_
  cases read layout x.toNat <;> simp [Slot.read]

theorem read_first {w : Nat} (x : BitVec w) : read [.fixed w x.toNat] x.toNat = some [] := by
  simp [read, Slot.read, Slot.width]

theorem toNat_append_assoc {u v w : Nat} (x : BitVec u) (y : BitVec v) (z : BitVec w) :
    (x ++ (y ++ z)).toNat = (x ++ y ++ z).toNat := by
  simp only [toNat_append]
  ring

/-- What fixed slots ask for: the offset of a slot, its width and its value. -/
def parts : Layout → List (Nat × Nat × Nat)
  | [] => []
  | .fixed w value :: rest => (width rest, w, value) :: parts rest
  | .free _ :: rest => parts rest

/-- Two layouts that ask for different values of the same bits. -/
def apart (layout other : Layout) : Bool :=
  layout.parts.any fun p => other.parts.any fun q => p.1 == q.1 && p.2.1 == q.2.1 && p.2.2 != q.2.2

theorem read_cons {slot : Slot} {rest : Layout} {n : Nat} {values : List Nat}
    (h : read (slot :: rest) n = some values) :
    ∃ first others, slot.read (n / 2 ^ width rest % 2 ^ slot.width) = some first ∧
      read rest n = some others ∧
      first ++ others = values := by
  simp only [read, Option.bind_eq_bind, Option.bind_eq_some_iff, Option.pure_def,
    Option.some.injEq] at h
  obtain ⟨first, hfirst, others, hothers, hvalues⟩ := h
  exact ⟨first, others, hfirst, hothers, hvalues⟩

theorem parts_of_read {layout : Layout} {n : Nat} {values : List Nat}
    (h : read layout n = some values) :
    ∀ p ∈ parts layout, n / 2 ^ p.1 % 2 ^ p.2.1 = p.2.2 := by
  induction layout generalizing values with
  | nil => simp [parts]
  | cons slot rest ih =>
    obtain ⟨first, others, hfirst, hothers, -⟩ := read_cons h
    cases slot with
    | free w => exact ih hothers
    | fixed w value =>
      have hvalue : n / 2 ^ width rest % 2 ^ w = value := by
        by_contra hne
        simp [Slot.read, Slot.width, hne] at hfirst
      exact List.forall_mem_cons.mpr ⟨hvalue, ih hothers⟩

/-- No number fits two such layouts. -/
theorem not_apart_of_read {layout other : Layout} {n : Nat} {values values' : List Nat}
    (h : read layout n = some values) (h' : read other n = some values') :
    apart layout other = false := by
  rw [Bool.eq_false_iff]
  intro hapart
  obtain ⟨p, hp, q, hq, hpq⟩ : ∃ p ∈ parts layout, ∃ q ∈ parts other, (p.1 = q.1 ∧ p.2.1 = q.2.1) ∧
      p.2.2 ≠ q.2.2 := by
    simpa [apart] using hapart
  have hleft := parts_of_read h p hp
  have hright := parts_of_read h' q hq
  rw [hpq.1.1, hpq.1.2, hright] at hleft
  exact hpq.2 hleft.symm

/-- A slot and the values behind it are told apart. -/
theorem slot_inj {slot : Slot} {a b : Nat} {first first' others others' : List Nat}
    (ha : slot.read a = some first) (hb : slot.read b = some first')
    (h : first ++ others = first' ++ others') : a = b ∧ others = others' := by
  cases slot with
  | free w =>
    simp only [Slot.read, Option.some.injEq] at ha hb
    subst ha hb
    simpa using h
  | fixed w value =>
    simp only [Slot.read, Option.ite_none_right_eq_some, Option.some.injEq] at ha hb
    obtain ⟨rfl, rfl⟩ := ha
    obtain ⟨rfl, rfl⟩ := hb
    exact ⟨rfl, by simpa using h⟩

/-- The slots hold all the bits. -/
theorem mod_eq_of_read {layout : Layout} {n m : Nat} {values : List Nat}
    (hn : read layout n = some values) (hm : read layout m = some values) :
    n % 2 ^ width layout = m % 2 ^ width layout := by
  induction layout generalizing values with
  | nil => simp [Nat.mod_one]
  | cons slot rest ih =>
    obtain ⟨first, others, hfirst, hothers, hvalues⟩ := read_cons hn
    obtain ⟨first', others', hfirst', hothers', hvalues'⟩ := read_cons hm
    obtain ⟨hslot, rfl⟩ := slot_inj hfirst hfirst' (hvalues.trans hvalues'.symm)
    rw [width_cons, Nat.pow_add', Nat.mod_mul, Nat.mod_mul, ih hothers hothers', hslot]

theorem apart_comm {layout other : Layout} (h : apart layout other = true) :
    apart other layout = true := by
  simp only [apart, List.any_eq_true, Bool.and_eq_true, beq_iff_eq, bne_iff_ne] at h ⊢
  obtain ⟨p, hp, q, hq, ⟨hoffset, hwidth⟩, hvalue⟩ := h
  exact ⟨q, hq, p, hp, ⟨hoffset.symm, hwidth.symm⟩, hvalue.symm⟩

end Layout

end PatchCode
