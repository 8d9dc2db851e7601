import Mathlib.Tactic

/-! Computations that may be refused. One that goes on from another succeeds if both do, and a list
is refused for the first of its elements that is. -/

namespace PatchCode

variable {α β ε : Type} {f : α → Except ε β} {xs : List α}

theorem exists_of_map_eq_ok {g : α → β} {x : Except ε α} {b : β} (h : x.map g = .ok b) :
    ∃ a, x = .ok a ∧ g a = b := by
  cases x with
  | error e => cases h
  | ok a => exact ⟨a, rfl, Except.ok.inj h⟩

section

variable {γ : Type} {x : Except ε β} {g : β → Except ε γ}

theorem bind_eq_ok_iff {c : γ} : (x >>= g) = .ok c ↔ ∃ b, x = .ok b ∧ g b = .ok c := by
  cases x <;> simp [bind, Except.bind]

theorem bind_eq_error_iff {e : ε} :
    (x >>= g) = .error e ↔ x = .error e ∨ ∃ b, x = .ok b ∧ g b = .error e := by
  cases x <;> simp [bind, Except.bind]

end

theorem mapM_eq_ok_iff {ys : List β} :
    xs.mapM f = .ok ys ↔ List.Forall₂ (fun x y => f x = .ok y) xs ys := by
  induction xs generalizing ys with
  | nil =>
    constructor
    · rintro ⟨⟩
      exact .nil
    · rintro ⟨⟩
      rfl
  | cons x xs ih =>
    simp only [List.mapM_cons, bind_eq_ok_iff, ih, List.forall₂_cons_left_iff]
    constructor
    · rintro ⟨y, hy, rest, hrest, ⟨⟩⟩
      exact ⟨y, rest, hy, hrest, rfl⟩
    · rintro ⟨y, rest, hy, hrest, rfl⟩
      exact ⟨y, hy, rest, hrest, rfl⟩

/-- A list is refused for the first of its elements that is. -/
theorem exists_first_of_mapM_eq_error {e : ε} (h : xs.mapM f = .error e) :
    ∃ front x back, xs = front ++ x :: back ∧ (∀ y ∈ front, ∃ z, f y = .ok z) ∧ f x = .error e := by
  induction xs with
  | nil => cases h
  | cons x xs ih =>
    simp only [List.mapM_cons, bind_eq_error_iff] at h
    rcases h with hx | ⟨y, hx, hxs | ⟨ys, -, ⟨⟩⟩⟩
    · exact ⟨[], x, xs, rfl, by simp, hx⟩
    · obtain ⟨front, z, back, rfl, hfront, hz⟩ := ih hxs
      exact ⟨x :: front, z, back, rfl, List.forall_mem_cons.mpr ⟨⟨y, hx⟩, hfront⟩, hz⟩

theorem exists_mapM_eq_ok_iff : (∃ ys, xs.mapM f = .ok ys) ↔ ∀ x ∈ xs, ∃ y, f x = .ok y := by
  constructor
  · rintro ⟨ys, h⟩
    induction mapM_eq_ok_iff.mp h with
    | nil => simp
    | cons hx _ ih => exact List.forall_mem_cons.mpr ⟨⟨_, hx⟩, ih (mapM_eq_ok_iff.mpr ‹_›)⟩
  · intro hall
    cases h : xs.mapM f with
    | ok ys => exact ⟨ys, rfl⟩
    | error e =>
      obtain ⟨front, x, back, rfl, -, hx⟩ := exists_first_of_mapM_eq_error h
      obtain ⟨y, hy⟩ := hall x (by simp)
      rw [hx] at hy
      cases hy

end PatchCode
