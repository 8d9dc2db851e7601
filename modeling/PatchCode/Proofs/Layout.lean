import Mathlib.Data.List.DropRight
import Mathlib.Tactic
import PatchCode.Proofs.Assembling

/-! Layout and comments carry no meaning. Cleaning a line leaves nothing more to clean, and lines
without text are passed over at every depth, so a program can be cleaned before it is assembled. A
comment may follow any line whose quotes are closed. -/

namespace PatchCode

namespace Text

theorem trimStart_of_isPrefix {xs ys : List Char} (h : xs <+: trimStart ys) :
    trimStart xs = xs := by
  obtain ⟨rest, hys⟩ := h
  cases xs with
  | nil => rfl
  | cons c xs =>
    -- The first character is that of a text that has been trimmed.
    have htwice : trimStart (c :: xs ++ rest) = c :: xs ++ rest := by
      rw [hys]
      exact List.dropWhile_idempotent _ ys
    have hc : ¬isBlank c = true := List.dropWhile_eq_self_iff.mp htwice (Nat.succ_pos _)
    exact List.dropWhile_cons_of_neg hc

theorem trim_trim (cs : List Char) : trim (trim cs) = trim cs := by
  have hfront : trim cs <+: trimStart cs := List.rdropWhile_prefix isBlank _
  rw [trim, trimStart_of_isPrefix hfront]
  exact List.rdropWhile_idempotent isBlank (trimStart cs)

end Text

namespace Source

/-- No semicolon in the text stands outside quotes, where the scan comes to the text in the given
state. -/
def Uncommented (q : Quoting) (cs : List Char) : Prop :=
  ∀ front back, cs = front ++ ';' :: back → front.foldl Quoting.next q ≠ .outside

section Comments

variable {q : Quoting} {cs xs ys : List Char}

theorem uncommented_nil : Uncommented q [] := by
  rintro (_ | _) back h <;> cases h

theorem uncommented_cons {c : Char} :
    Uncommented q (c :: cs) ↔ ¬(q = .outside ∧ c = ';') ∧ Uncommented (q.next c) cs := by
  constructor
  · intro h
    refine ⟨?_, fun front back hcs => h (c :: front) back (by rw [hcs]; rfl)⟩
    rintro ⟨rfl, rfl⟩
    exact h [] cs rfl rfl
  · rintro ⟨hc, hcs⟩ front back heq
    cases front with
    | nil =>
      obtain ⟨rfl, -⟩ := List.cons.inj heq
      exact fun hq => hc ⟨hq, rfl⟩
    | cons d front =>
      obtain ⟨rfl, hback⟩ := List.cons.inj heq
      exact hcs front back hback

theorem uncommented_append :
    Uncommented q (xs ++ ys) ↔ Uncommented q xs ∧ Uncommented (xs.foldl Quoting.next q) ys := by
  induction xs generalizing q with
  | nil => simp [uncommented_nil]
  | cons c xs ih =>
    rw [List.cons_append, uncommented_cons, uncommented_cons, ih, List.foldl_cons, and_assoc]

theorem Uncommented.of_isPrefix (h : Uncommented q ys) (hfront : xs <+: ys) : Uncommented q xs := by
  obtain ⟨rest, rfl⟩ := hfront
  intro front back hxs
  exact h front (back ++ rest) (by rw [hxs, List.append_assoc, List.cons_append])

/-- Blanks at the start do not open quotes. -/
theorem Uncommented.trimStart (h : Uncommented .outside cs) :
    Uncommented .outside (Text.trimStart cs) := by
  induction cs with
  | nil => exact h
  | cons c cs ih =>
    rw [Text.trimStart, List.dropWhile_cons]
    split_ifs with hblank
    · have hquote : c ≠ '"' := by
        rintro rfl
        exact absurd hblank (by decide)
      have hrest := (uncommented_cons.mp h).2
      rw [Quoting.next_outside hquote] at hrest
      exact ih hrest
    · exact h

/-- The scan goes through such a text and on with what follows. -/
theorem beforeComment_append (h : Uncommented q xs) (ys : List Char) :
    beforeComment q (xs ++ ys) = xs ++ beforeComment (xs.foldl Quoting.next q) ys := by
  induction xs generalizing q with
  | nil => rfl
  | cons c xs ih =>
    obtain ⟨hc, hxs⟩ := uncommented_cons.mp h
    rw [List.cons_append, beforeComment, if_neg hc, ih hxs]
    rfl

theorem uncommented_beforeComment (q : Quoting) (cs : List Char) :
    Uncommented q (beforeComment q cs) := by
  induction cs generalizing q with
  | nil => exact uncommented_nil
  | cons c cs ih =>
    rw [beforeComment]
    split_ifs with hc
    · exact uncommented_nil
    · exact uncommented_cons.mpr ⟨hc, ih _⟩

theorem uncommented_iff : Uncommented q cs ↔ beforeComment q cs = cs := by
  constructor
  · intro h
    simpa [beforeComment] using beforeComment_append h []
  · intro h
    rw [← h]
    exact uncommented_beforeComment q cs

instance : Decidable (Uncommented q cs) := decidable_of_iff _ uncommented_iff.symm

end Comments

theorem clean_clean (line : String) : clean (.ofList (clean line)) = clean line := by
  have hstart : Uncommented .outside (Text.trimStart (stripComment line.toList)) :=
    (uncommented_beforeComment .outside line.toList).trimStart
  have hfront : clean line <+: Text.trimStart (stripComment line.toList) :=
    List.rdropWhile_prefix Text.isBlank _
  rw [clean, String.toList_ofList, stripComment, uncommented_iff.mp (hstart.of_isPrefix hfront),
    clean, Text.trim_trim]

theorem clean_commented {x : String} (hclosed : x.toList.foldl Quoting.next .outside = .outside)
    (h : Uncommented .outside x.toList) (comment : String) :
    clean (x ++ ";" ++ comment) = clean x := by
  have hstrip : stripComment (x ++ ";" ++ comment).toList = x.toList := by
    rw [String.toList_append, String.toList_append, List.append_assoc, stripComment,
      beforeComment_append h, hclosed]
    exact List.append_nil _
  rw [clean, hstrip, clean, stripComment, uncommented_iff.mp h]

def essence (lines : List String) : List String :=
  (lines.map fun line => String.ofList (clean line)).filter (· ≠ "")

end Source

namespace Outline.Levels

def bare : Levels → Levels
  | last items => last items
  | closed items _ next => closed items [] next.bare

theorem items_bare (levels : Levels) : levels.bare.items = levels.items := by
  cases levels <;> rfl

theorem bare_push (item : Outline) (levels : Levels) :
    (levels.push item).bare = levels.bare.push item := by
  cases levels <;> rfl

theorem bare_nest (line : Source.Line) (head : Head) (levels : Levels) :
    (levels.nest line head).bare = levels.bare.nest line head := by
  cases levels with
  | last body => rfl
  | closed body rest next => exact bare_push _ next

end Outline.Levels

namespace Source

theorem bare_levels_essence (lines : List String) :
    (levels (essence lines)).bare = (levels lines).bare := by
  induction lines with
  | nil => rfl
  | cons line rest ih =>
    have hrole : role (.ofList (clean line)) = role line := by rw [role, clean_clean, role]
    by_cases htext : clean line = []
    · have hblank : role line = .blank := by rw [role, htext]; rfl
      have hskip : essence (line :: rest) = essence rest := by simp [essence, htext]
      rw [hskip, levels_cons, hblank, ih]
    · have hkeep : essence (line :: rest) = .ofList (clean line) :: essence rest := by
        simp [essence, String.ofList_eq_empty_iff, htext]
      rw [hkeep, levels_cons, levels_cons, hrole, clean_clean]
      cases role line with
      | blank => exact ih
      | leaf act => rw [Outline.Levels.bare_push, Outline.Levels.bare_push, ih]
      | opens head => rw [Outline.Levels.bare_nest, Outline.Levels.bare_nest, ih]
      | closes => simp only [Outline.Levels.bare, ih]

/-- Of a line only its cleaned text and its number count. -/
theorem number_congr {lines lines' : List String} (h : lines.map clean = lines'.map clean) :
    number lines = number lines' := by
  have hnumber : ∀ lines, number lines = ((lines.map clean).zipIdx 1).map fun (text, n) =>
      ⟨n, text⟩ := by
    intro lines
    rw [List.zipIdx_map, List.map_map]
    rfl
  rw [hnumber, hnumber, h]

end Source

/-- A program comes to the same, or is refused for the same fault, if it is cleaned first. A comment
behind a line whose quotes are closed makes no difference at all, not even to the log. -/
theorem assemble_layout (encode : Encoder) :
    (∀ lines : List String, (assemble encode (Source.essence lines)).result =
      (assemble encode lines).result) ∧
      ∀ (front back : List String) (x comment : String),
        x.toList.foldl Source.Quoting.next .outside = .outside →
        Source.Uncommented .outside x.toList →
        assemble encode (front ++ (x ++ ";" ++ comment) :: back) =
          assemble encode (front ++ x :: back) := by
  refine ⟨fun lines => ?_, fun front back x comment hclosed h => ?_⟩
  · have hitems : (Source.levels (Source.essence lines)).items = (Source.levels lines).items := by
      rw [← Outline.Levels.items_bare, Source.bare_levels_essence, Outline.Levels.items_bare]
    rw [result_assemble, result_assemble, hitems]
  · have hclean : (front ++ (x ++ ";" ++ comment) :: back).map Source.clean =
        (front ++ x :: back).map Source.clean := by
      simp only [List.map_append, List.map_cons, Source.clean_commented hclosed h]
    rw [assemble, assemble, Source.number_congr hclean]

def quotedLine : String := " .str \"a;b\\\";c\""

theorem assemble_quotedLine :
    quotedLine.toList.foldl Source.Quoting.next .outside = .outside ∧
      Source.Uncommented .outside quotedLine.toList ∧
      (assemble powerPC (["!repeat 2"] ++ quotedLine :: ["!end"])).result.map List.length = .ok 1 ∧
      assemble powerPC (["!repeat 2"] ++ (quotedLine ++ ";" ++ " \"odd; !end") :: ["!end"]) =
        assemble powerPC (["!repeat 2"] ++ quotedLine :: ["!end"]) := by
  have hclosed : quotedLine.toList.foldl Source.Quoting.next .outside = .outside := by
    decide +kernel
  have huncommented : Source.Uncommented .outside quotedLine.toList := by decide +kernel
  exact ⟨hclosed, huncommented, by decide +kernel,
    (assemble_layout powerPC).2 _ _ quotedLine _ hclosed huncommented⟩

end PatchCode
