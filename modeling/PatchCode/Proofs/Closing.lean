import Mathlib.Tactic
import PatchCode.Proofs.Assembling

/-! Bodies that are left open are closed by the end of the program, and closing them in so many
words makes no difference. Every opening line takes one of the closing lines that follow the
program, so if there are more of them than lines, one is left to end the program, and what follows
is not read. -/

namespace PatchCode

namespace Outline.Levels

variable {l l' : Levels} {m n : Nat}

/-- The second levels go on where the first end, with so many closing lines and nothing between
them. Where no closing line is left, the two may differ in every way. -/
inductive Sealed : Nat → Levels → Levels → Prop
  | unknown (l l' : Levels) : Sealed 0 l l'
  | last {n : Nat} {next : Levels} (h : Sealed n (last []) next) (items : List Outline)
      (rest : List Source.Line) :
    Sealed (n + 1) (last items) (closed items rest next)
  | closed {n : Nat} {next next' : Levels} (h : Sealed n next next') (items : List Outline)
      (rest rest' : List Source.Line) :
    Sealed n (closed items rest next) (closed items rest' next')

namespace Sealed

theorem mono (h : Sealed n l l') (hmn : m ≤ n) : Sealed m l l' := by
  induction h generalizing m with
  | unknown l l' =>
    obtain rfl := Nat.le_zero.mp hmn
    exact .unknown l l'
  | last _ items rest ih =>
    cases m with
    | zero => exact .unknown _ _
    | succ m => exact .last (ih (Nat.le_of_succ_le_succ hmn)) items rest
  | closed _ items rest rest' ih => exact .closed (ih hmn) items rest rest'

theorem push (h : Sealed n l l') (item : Outline) : Sealed n (l.push item) (l'.push item) := by
  cases h with
  | unknown => exact .unknown _ _
  | last h items rest => exact .last h (item :: items) rest
  | closed h items rest rest' => exact .closed h (item :: items) rest rest'

/-- An opening line takes a closing line, if none of the program closes it. -/
theorem nest (h : Sealed (n + 1) l l') (line : Source.Line) (head : Head) :
    Sealed n (l.nest line head) (l'.nest line head) := by
  cases h with
  | last h items rest => exact h.push (.nest line head items)
  | closed h items rest rest' => exact (h.mono n.le_succ).push (.nest line head items)

theorem items_eq (h : Sealed (n + 1) l l') : l'.items = l.items := by
  cases h <;> rfl

end Sealed

end Outline.Levels

namespace Source

open Outline.Levels (Sealed)

theorem sealed_replicate {closing : String} (h : role closing = .closes) (n : Nat)
    (rest : List String) :
    Sealed n (.last []) (levels (List.replicate n closing ++ rest)) := by
  induction n with
  | zero => exact .unknown _ _
  | succ n ih =>
    rw [List.replicate_succ, List.cons_append, levels_cons, h]
    exact .last ih [] _

theorem sealed_append (front : List String) {back : List String} {n : Nat}
    (h : Sealed (n + front.length) (.last []) (levels back)) :
    Sealed n (levels front) (levels (front ++ back)) := by
  induction front generalizing n with
  | nil => exact h
  | cons line front ih =>
    rw [List.length_cons] at h
    have hrest : Sealed n (levels front) (levels (front ++ back)) := ih (h.mono (by omega))
    rw [List.cons_append, levels_cons, levels_cons]
    cases role line with
    | blank => exact hrest
    | leaf act => exact hrest.push _
    | opens head => exact (ih (by rwa [Nat.add_right_comm])).nest _ head
    | closes => exact .closed hrest [] _ _

/-- What follows more closing lines than there are lines before them does not belong to the
program. -/
theorem items_levels_closed {closing : String} (hclosing : role closing = .closes)
    (lines : List String) {k : Nat} (h : lines.length < k) (rest : List String) :
    (levels (lines ++ List.replicate k closing ++ rest)).items = (levels lines).items := by
  rw [List.append_assoc]
  exact (sealed_append (n := 1) lines ((sealed_replicate hclosing k rest).mono (by omega))).items_eq

/-- One closing line more or less makes no difference, nor do many. -/
theorem items_levels_ended {closing : String} (hclosing : role closing = .closes)
    (lines : List String) (k : Nat) :
    (levels (lines ++ List.replicate k closing)).items = (levels lines).items := by
  -- Enough further closing lines seal both programs, and then they are the same program.
  have hlength : (lines ++ List.replicate k closing).length < lines.length + k + 1 := by simp
  have hended := items_levels_closed hclosing _ hlength []
  have hplain := items_levels_closed hclosing lines (k := k + (lines.length + k + 1)) (by omega) []
  rw [List.replicate_add, ← List.append_assoc] at hplain
  exact hended.symm.trans hplain

end Source

/-- A program that leaves bodies open is the same with any number of closing lines behind it. Behind
more closing lines than it has lines, nothing is read. -/
theorem assemble_closed (encode : Encoder) (lines : List String) (k : Nat) :
    (assemble encode (lines ++ List.replicate k "!end")).result = (assemble encode lines).result ∧
      ∀ rest : List String, lines.length < k →
        (assemble encode (lines ++ List.replicate k "!end" ++ rest)).result =
          (assemble encode lines).result := by
  have hend : Source.role "!end" = .closes := rfl
  refine ⟨?_, fun rest hk => ?_⟩
  · rw [result_assemble, result_assemble, Source.items_levels_ended hend]
  · rw [result_assemble, result_assemble, Source.items_levels_closed hend lines hk]

def openBodies : List String := ["!repeat 2", "!u8 equal 1", ".u8 7"]

/-- The line behind them would be refused. -/
theorem assemble_openBodies :
    openBodies.length < 4 ∧ (assemble powerPC openBodies).result.map List.length = .ok 1 ∧
      (assemble powerPC (openBodies ++ List.replicate 4 "!end" ++ ["?"])).result =
        (assemble powerPC openBodies).result := by
  have hlength : openBodies.length < 4 := by decide
  exact ⟨hlength, by decide +kernel, (assemble_closed powerPC openBodies 4).2 ["?"] hlength⟩

end PatchCode
