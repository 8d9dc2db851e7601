import Mathlib.Tactic
import PatchCode.Proofs.Assembling
import PatchCode.Proofs.Faults
import PatchCode.Source.Cursor

/-! Where a block ends. The nested reading of a program closes its first level at the line that a
flat scan finds by counting the bodies that are open: the first closing line that has no opening
line before it. -/

namespace PatchCode

inductive Stop where
  | closed
  | exhausted
  deriving Repr, DecidableEq

def Source.Cursor.skip (c : Cursor) (n : Nat) : Cursor := ⟨c.consumed + n, c.rest.drop n⟩

namespace Outline.Levels

def stop : Levels → Stop
  | last _ => .exhausted
  | closed _ _ _ => .closed

/-- The levels behind the first, with nothing behind the last. -/
def next : Levels → Levels
  | last _ => last []
  | closed _ _ next => next

def ending : Levels → Option (List Source.Line × Levels)
  | last _ => none
  | closed _ rest next => some (rest, next)

theorem items_nest_next (line : Source.Line) (head : Head) (levels : Levels) :
    (levels.nest line head).items = .nest line head levels.items :: levels.next.items := by
  rcases levels with body | ⟨body, rest, _ | _⟩ <;> rfl

theorem items_push (item : Outline) (levels : Levels) :
    (levels.push item).items = item :: levels.items := by
  cases levels <;> rfl

theorem next_push (item : Outline) (levels : Levels) : (levels.push item).next = levels.next := by
  cases levels <;> rfl

theorem next_nest (line : Source.Line) (head : Head) (levels : Levels) :
    (levels.nest line head).next = levels.next.next := by
  rcases levels with body | ⟨body, rest, _ | _⟩ <;> rfl

theorem ending_iterate_push (item : Outline) (levels : Levels) (depth : Nat) :
    (next^[depth] (levels.push item)).ending = (next^[depth] levels).ending := by
  cases depth with
  | zero => cases levels <;> rfl
  | succ depth => rw [Function.iterate_succ_apply, Function.iterate_succ_apply, next_push]

theorem ending_iterate_nest (line : Source.Line) (head : Head) (levels : Levels) (depth : Nat) :
    (next^[depth] (levels.nest line head)).ending = (next^[depth + 1] levels).ending := by
  cases depth with
  | zero => rcases levels with body | ⟨body, rest, _ | _⟩ <;> rfl
  | succ depth => simp only [Function.iterate_succ_apply, next_nest]

end Outline.Levels

namespace Role

def isOpening : Role → Bool
  | opens _ => true
  | blank | leaf _ | closes => false

def isClosing : Role → Bool
  | closes => true
  | blank | leaf _ | opens _ => false

end Role

namespace Source

/-- A flat scan for the closing line that ends the block, inside so many bodies of it: how it ends,
and the cursor behind. -/
def extentFrom : Nat → Nat → List String → Stop × Cursor
  | _, consumed, [] => (.exhausted, ⟨consumed, []⟩)
  | depth, consumed, line :: rest =>
    match role line, depth with
    | .blank, depth | .leaf _, depth => extentFrom depth (consumed + 1) rest
    | .opens _, depth => extentFrom (depth + 1) (consumed + 1) rest
    | .closes, 0 => (.closed, ⟨consumed + 1, rest⟩)
    | .closes, depth + 1 => extentFrom depth (consumed + 1) rest

def Cursor.extent (c : Cursor) : Stop × Cursor := extentFrom 0 c.consumed c.rest

/-- Out of some bodies first and then out of the others, the scan stops where it would otherwise. -/
theorem extentFrom_add (depth inner consumed : Nat) (lines : List String) :
    extentFrom (depth + inner + 1) consumed lines =
      extentFrom depth (extentFrom inner consumed lines).2.consumed
        (extentFrom inner consumed lines).2.rest := by
  induction lines generalizing inner consumed with
  | nil => rfl
  | cons line rest ih =>
    simp only [extentFrom]
    cases role line with
    | blank | leaf act => exact ih inner (consumed + 1)
    | opens head => exact ih (inner + 1) (consumed + 1)
    | closes =>
      cases inner with
      | zero => rfl
      | succ inner => exact ih inner (consumed + 1)

/-- The levels of a program end where the flat scan stops. -/
theorem ending_levels (depth consumed : Nat) (lines : List String) :
    (Outline.Levels.next^[depth] (levels lines)).ending =
      match extentFrom depth consumed lines with
      | (.exhausted, _) => none
      | (.closed, c) => some (unnumbered c.rest, levels c.rest) := by
  -- on the lines, at every depth: an opening line is followed by one level more that has to be
  -- passed
  induction lines generalizing depth consumed with
  | nil =>
    have hfixed : Outline.Levels.next^[depth] (levels []) = levels [] :=
      Function.iterate_fixed rfl depth
    rw [hfixed]
    rfl
  | cons line rest ih =>
    simp only [levels_cons, extentFrom]
    cases role line with
    | blank => exact ih depth (consumed + 1)
    | leaf act =>
      exact (Outline.Levels.ending_iterate_push _ _ depth).trans (ih depth (consumed + 1))
    | opens head =>
      exact (Outline.Levels.ending_iterate_nest _ _ _ depth).trans (ih (depth + 1) (consumed + 1))
    | closes =>
      cases depth with
      | zero => rfl
      | succ depth => exact ih depth (consumed + 1)

def openings (lines : List String) : Nat := lines.countP fun line => (role line).isOpening

def closings (lines : List String) : Nat := lines.countP fun line => (role line).isClosing

/-- The line with that index closes one body more than are open, so many of them open before the
first line, and it is the first to do so. -/
structure ClosesAt (depth : Nat) (lines : List String) (i : Nat) : Prop where
  lt : i < lines.length
  unmatched : depth + openings (lines.take (i + 1)) < closings (lines.take (i + 1))
  matched : ∀ j ≤ i, closings (lines.take j) ≤ depth + openings (lines.take j)

instance (depth : Nat) (lines : List String) (i : Nat) : Decidable (ClosesAt depth lines i) :=
  decidable_of_iff (i < lines.length ∧
    depth + openings (lines.take (i + 1)) < closings (lines.take (i + 1)) ∧
      ∀ j ≤ i, closings (lines.take j) ≤ depth + openings (lines.take j))
    ⟨fun ⟨hlt, hunmatched, hmatched⟩ => ⟨hlt, hunmatched, hmatched⟩, fun h =>
      ⟨h.lt, h.unmatched, h.matched⟩⟩

theorem countP_cons_toNat (p : String → Bool) (line : String) (lines : List String) :
    (line :: lines).countP p = (p line).toNat + lines.countP p := by
  rw [List.countP_cons]
  cases p line <;> simp [Nat.add_comm]

theorem openings_cons (line : String) (lines : List String) :
    openings (line :: lines) = (role line).isOpening.toNat + openings lines :=
  countP_cons_toNat _ line lines

theorem closings_cons (line : String) (lines : List String) :
    closings (line :: lines) = (role line).isClosing.toNat + closings lines :=
  countP_cons_toNat _ line lines

/-- A line that closes no more than is open leaves the search to the lines behind it. -/
theorem closesAt_cons_succ {depth depth' : Nat} {line : String}
    (h : depth + (role line).isOpening.toNat = depth' + (role line).isClosing.toNat)
    (rest : List String) (i : Nat) :
    ClosesAt depth (line :: rest) (i + 1) ↔ ClosesAt depth' rest i := by
  constructor
  · rintro ⟨hlt, hunmatched, hmatched⟩
    rw [List.take_succ_cons, openings_cons, closings_cons] at hunmatched
    refine ⟨by simpa using hlt, by omega, fun j hj => ?_⟩
    have := hmatched (j + 1) (by omega)
    rw [List.take_succ_cons, openings_cons, closings_cons] at this
    omega
  · rintro ⟨hlt, hunmatched, hmatched⟩
    refine ⟨by simpa using hlt, ?_, fun j hj => ?_⟩
    · rw [List.take_succ_cons, openings_cons, closings_cons]
      omega
    · cases j with
      | zero => exact Nat.zero_le _
      | succ j =>
        rw [List.take_succ_cons, openings_cons, closings_cons]
        have := hmatched j (by omega)
        omega

theorem not_closesAt_cons_zero {depth : Nat} {line : String}
    (h : (role line).isClosing.toNat ≤ depth + (role line).isOpening.toNat) (rest : List String) :
    ¬ ClosesAt depth (line :: rest) 0 := by
  rintro ⟨-, hunmatched, -⟩
  simp only [List.take_succ_cons, List.take_zero, openings_cons, closings_cons] at hunmatched
  simp only [openings, closings, List.countP_nil] at hunmatched
  omega

theorem Cursor.skip_cons (k : Nat) (line : String) (rest : List String) (n : Nat) :
    skip ⟨k, line :: rest⟩ (n + 1) = skip ⟨k + 1, rest⟩ n := by
  rw [skip, skip, List.drop_succ_cons, Nat.add_assoc, Nat.add_comm 1 n]

theorem Cursor.skip_skip (c : Cursor) (m n : Nat) : (c.skip m).skip n = c.skip (m + n) := by
  simp [skip, Nat.add_assoc]

theorem Cursor.length_skip (c : Cursor) (n : Nat) : (c.skip n).rest.length = c.rest.length - n :=
  List.length_drop

/-- A scan stops behind the first line that closes more than is open, or else at the end. -/
def Ends (depth : Nat) (c : Cursor) (found : Stop × Cursor) : Prop :=
  (∃ i, ClosesAt depth c.rest i ∧ found = (.closed, c.skip (i + 1))) ∨
    (∀ i, ¬ ClosesAt depth c.rest i) ∧ found = (.exhausted, c.skip c.rest.length)

theorem Ends.cons {depth depth' k : Nat} {line : String} {rest : List String}
    {found : Stop × Cursor}
    (h : depth + (role line).isOpening.toNat = depth' + (role line).isClosing.toNat)
    (hends : Ends depth' ⟨k + 1, rest⟩ found) : Ends depth ⟨k, line :: rest⟩ found := by
  rcases hends with ⟨i, hi, rfl⟩ | ⟨hnone, rfl⟩
  · exact .inl ⟨i + 1, (closesAt_cons_succ h rest i).mpr hi, by rw [Cursor.skip_cons]⟩
  · refine .inr ⟨fun i hi => ?_, by rw [List.length_cons, Cursor.skip_cons]⟩
    cases i with
    | zero => exact not_closesAt_cons_zero (by omega) rest hi
    | succ i => exact hnone i ((closesAt_cons_succ h rest i).mp hi)

theorem ends_extentFrom (depth k : Nat) (lines : List String) :
    Ends depth ⟨k, lines⟩ (extentFrom depth k lines) := by
  induction lines generalizing depth k with
  | nil => exact .inr ⟨fun i hi => absurd hi.lt (Nat.not_lt_zero i), rfl⟩
  | cons line rest ih =>
    simp only [extentFrom]
    cases hrole : role line with
    | blank | leaf act => exact .cons (by rw [hrole]; rfl) (ih depth (k + 1))
    | opens head => exact .cons (by rw [hrole]; rfl) (ih (depth + 1) (k + 1))
    | closes =>
      cases depth with
      | succ depth => exact .cons (by rw [hrole]; rfl) (ih depth (k + 1))
      | zero =>
        refine .inl ⟨0, ⟨Nat.succ_pos _, ?_, fun j hj => ?_⟩, rfl⟩
        · simp [openings, closings, hrole, Role.isOpening, Role.isClosing]
        · rw [Nat.le_zero.mp hj]
          exact Nat.zero_le _

theorem Cursor.ends_extent (c : Cursor) : Ends 0 c c.extent := ends_extentFrom 0 c.consumed c.rest

theorem Cursor.exists_extent_eq (c : Cursor) : ∃ n ≤ c.rest.length, c.extent.2 = c.skip n := by
  rcases c.ends_extent with ⟨i, hi, hfound⟩ | ⟨-, hfound⟩ <;> rw [hfound]
  · exact ⟨i + 1, hi.lt, rfl⟩
  · exact ⟨c.rest.length, le_rfl, rfl⟩

/-- Behind an opening line, the block goes on where the body ends. -/
theorem Cursor.extent_cons (k : Nat) (line : String) (rest : List String) :
    extent ⟨k, line :: rest⟩ =
      match role line with
      | .blank | .leaf _ => extent ⟨k + 1, rest⟩
      | .opens _ => (extent ⟨k + 1, rest⟩).2.extent
      | .closes => (.closed, ⟨k + 1, rest⟩) := by
  simp only [extent, extentFrom]
  cases role line with
  | opens head => exact extentFrom_add 0 0 (k + 1) rest
  | blank | leaf act | closes => rfl

theorem Cursor.length_extent_le (c : Cursor) : c.extent.2.rest.length ≤ c.rest.length := by
  obtain ⟨n, -, hn⟩ := c.exists_extent_eq
  rw [hn, length_skip]
  exact Nat.sub_le _ _

/-- The first level of the lines ahead is what the scan passes over. -/
theorem levels_extent (c : Cursor) :
    (levels c.rest).stop = c.extent.1 ∧ (levels c.rest).rest = unnumbered c.extent.2.rest ∧
      (levels c.rest).next = levels c.extent.2.rest := by
  have hending := ending_levels 0 c.consumed c.rest
  rw [Function.iterate_zero, id_eq, ← Cursor.extent] at hending
  rcases c.ends_extent with ⟨i, -, hfound⟩ | ⟨-, hfound⟩ <;> rw [hfound] at hending ⊢ <;>
    rcases hlevels : levels c.rest with items | ⟨items, rest, next⟩ <;> rw [hlevels] at hending
  · cases hending
  · obtain ⟨rfl, rfl⟩ := Prod.mk.inj (Option.some.inj hending)
    exact ⟨rfl, rfl, rfl⟩
  · rw [Cursor.skip, List.drop_length]
    exact ⟨rfl, rfl, rfl⟩
  · cases hending

/-- What the labels say and how often the repeats are done makes no difference to the scan. -/
theorem extentFrom_relaid {lines lines' : List String} (h : List.Forall₂ Relaid lines lines')
    (depth k : Nat) :
    (extentFrom depth k lines).1 = (extentFrom depth k lines').1 ∧
      (extentFrom depth k lines).2.consumed = (extentFrom depth k lines').2.consumed := by
  induction h generalizing depth k with
  | nil => exact ⟨rfl, rfl⟩
  | @cons line line' _ _ hline _ ih =>
    simp only [extentFrom]
    cases hline with
    | same =>
      cases role line with
      | blank | leaf act => exact ih depth (k + 1)
      | opens head => exact ih (depth + 1) (k + 1)
      | closes =>
        cases depth with
        | zero => exact ⟨rfl, rfl⟩
        | succ depth => exact ih depth (k + 1)
    | label h h' =>
      rw [role_of_read h, role_of_read h']
      exact ih depth (k + 1)
    | times h h' =>
      rw [role_of_read h, role_of_read h']
      exact ih (depth + 1) (k + 1)

end Source

theorem Outline.Levels.stop_unnumbered (levels : Levels) :
    levels.unnumbered.stop = levels.stop := by
  cases levels <;> rfl

theorem Outline.Levels.length_rest_unnumbered (levels : Levels) :
    levels.unnumbered.rest.length = levels.rest.length := by
  cases levels with
  | last items => rfl
  | closed items rest next => exact List.length_map _

end PatchCode
