import Mathlib.Tactic
import PatchCode.Proofs.Diagnostics

/-! A guard that Gecko cannot express costs nothing but itself. It is left out with its body and
reported, and all other lines are those of the program without it: nothing of it is written in part,
and if nothing is reported, nothing was lost. -/

namespace PatchCode.Gecko

/-- There is a code for the comparison: it is at a multiple of its size, and is not a mask of a
word. -/
def Expressible (c : Condition) : Prop :=
  c.address.toNat % c.type.size = 0 ∧ ¬(c.comparison = .mask ∧ c.type.size = 4)

instance : DecidablePred Expressible := fun _ => inferInstanceAs (Decidable (_ ∧ _))

mutual

/-- The patches that take the place of this one if guards that are not expressible are taken out
with their bodies. -/
def prune : Patch → List Patch
  | .write data => [.write data]
  | .block body => [.block (pruneAll body)]
  | .group body => [.group (pruneAll body)]
  | .guard c body => if Expressible c then [.guard c (pruneAll body)] else []
  | .adjust adjustment => [.adjust adjustment]

def pruneAll : List Patch → List Patch
  | [] => []
  | p :: ps => prune p ++ pruneAll ps

end

theorem isAligned_iff {c : Condition} : isAligned c = true ↔ c.address.toNat % c.type.size = 0 := by
  rw [isAligned, Bool.or_eq_true_iff, beq_iff_eq, beq_iff_eq, or_iff_right_iff_imp]
  intro hsize
  rw [hsize, Nat.mod_one]

/-- Every condition has a header, is off its boundary, or masks a word. -/
theorem header_cases (c : Condition) :
    (Expressible c ∧ ∃ record, header c = .ok record) ∨
      (c.address.toNat % c.type.size ≠ 0 ∧
        header c = .error (.misaligned c.type c.comparison c.address)) ∨
      (c.comparison = .mask ∧ c.type.size = 4 ∧
        header c = .error (.noMaskCode c.type c.address)) := by
  unfold header
  by_cases haligned : isAligned c = true
  · rw [if_neg (by simp [haligned])]
    have hmod := isAligned_iff.mp haligned
    by_cases hword : c.type.size = 4
    · rw [if_pos hword]
      cases hcomparison : c.comparison with
      | mask => exact .inr (.inr ⟨rfl, hword, rfl⟩)
      | equal | unequal | lessThan | greaterThan =>
        exact .inl ⟨⟨hmod, by simp [hcomparison]⟩, _, rfl⟩
    · rw [if_neg hword]
      exact .inl ⟨⟨hmod, fun hmask => hword hmask.2⟩, _, rfl⟩
  · rw [if_pos (by simpa using haligned)]
    exact .inr (.inl ⟨mt isAligned_iff.mpr haligned, rfl⟩)

theorem header_of_expressible {c : Condition} (h : Expressible c) :
    ∃ record, header c = .ok record := by
  rcases header_cases c with ⟨-, hheader⟩ | ⟨hoff, -⟩ | ⟨hmask, hword, -⟩
  · exact hheader
  · exact absurd h.1 hoff
  · exact absurd ⟨hmask, hword⟩ h.2

theorem header_of_not_expressible {c : Condition} (h : ¬Expressible c) :
    ∃ refusal, header c = .error refusal := by
  rcases header_cases c with ⟨hc, -⟩ | ⟨-, hheader⟩ | ⟨-, -, hheader⟩
  · exact absurd hc h
  · exact ⟨_, hheader⟩
  · exact ⟨_, hheader⟩

theorem errors_remarks (c : Condition) : (remarks c).errors = [] := by
  unfold remarks
  split_ifs <;> rfl

/-- The second listing is the first without what was left out of it: the lines are the same, and so
are the warnings if nothing is reported. Where nothing is reported and nothing is written, there is
nothing to warn about either. -/
structure Isolates (l m : Listing Record) : Prop where
  lines : l.lines = m.lines
  errors : m.errors = []
  warnings : l.errors = [] → l.warnings = m.warnings
  quiet : l.errors = [] → l.lines = [] → l.warnings = []

namespace Isolates

variable {l m l' m' : Listing Record} {c : Condition}

theorem of_silent (hwarnings : l.warnings = []) (herrors : l.errors = []) : Isolates l l :=
  ⟨rfl, herrors, fun _ => rfl, fun _ _ => hwarnings⟩

theorem append (h : Isolates l m) (h' : Isolates l' m') : Isolates (l ++ l') (m ++ m') where
  lines := by rw [Listing.lines_append, Listing.lines_append, h.lines, h'.lines]
  errors := List.append_eq_nil_iff.mpr ⟨h.errors, h'.errors⟩
  warnings herrors := by
    obtain ⟨hl, hl'⟩ := List.append_eq_nil_iff.mp herrors
    rw [Listing.warnings_append, Listing.warnings_append, h.warnings hl, h'.warnings hl']
  quiet herrors hlines := by
    obtain ⟨hl, hl'⟩ := List.append_eq_nil_iff.mp herrors
    obtain ⟨hempty, hempty'⟩ := List.append_eq_nil_iff.mp hlines
    exact List.append_eq_nil_iff.mpr ⟨h.quiet hl hempty, h'.quiet hl' hempty'⟩

/-- A warning about a guard comes with its lines. -/
theorem framed (h : Isolates l m) {record : Record} (hheader : header c = .ok record) :
    Isolates (frame c l) (frame c m) := by
  unfold frame
  rw [← h.lines, hheader]
  split_ifs with hempty
  · exact h
  · have hremarks := errors_remarks c
    refine ⟨rfl, ?_, ?_, ?_⟩
    · simp [h.errors, hremarks]
    · intro herrors
      have hl : l.errors = [] := by simpa [hremarks] using herrors
      simp [h.warnings hl]
    · intro _ hlines
      simp at hlines

/-- A guard that is left out without a report had no lines to guard, and so nothing to warn
about. -/
theorem leftOut (h : Isolates l m) {refusal : Refusal} (hheader : header c = .error refusal) :
    Isolates (frame c l) {} := by
  unfold frame
  rw [hheader]
  split_ifs with hempty
  · have hlines : l.lines = [] := List.isEmpty_iff.mp hempty
    exact ⟨hlines, rfl, fun herrors => h.quiet herrors hlines, h.quiet⟩
  · have hreported : (l.withoutLines ++ Listing.ofRefusal refusal).errors ≠ [] := by
      simp [Listing.ofRefusal]
    exact ⟨rfl, rfl, fun herrors => absurd herrors hreported, fun herrors =>
      absurd herrors hreported⟩

end Isolates

theorem writeAll_append (style : Style) (ps qs : List Patch) :
    writeAll style (ps ++ qs) = writeAll style ps ++ writeAll style qs := by
  simp only [writeAll_eq_scheme, Scheme.writeAll_append]

theorem writeAll_singleton (style : Style) (p : Patch) : writeAll style [p] = write style p :=
  Listing.append_empty _

mutual

theorem isolates_prune :
    ∀ (style : Style) (p : Patch), Isolates (write style p) (writeAll style (prune p))
  | style, .write w => by
    obtain ⟨hwarnings, herrors⟩ := silent_writeData style w
    rw [prune, writeAll_singleton]
    exact .of_silent hwarnings herrors
  | style, .adjust a => by
    rw [prune, writeAll_singleton]
    exact .of_silent rfl rfl
  | style, .block body | style, .group body => by
    rw [prune, writeAll_singleton]
    exact isolates_pruneAll style body
  | style, .guard c body => by
    have hbody := isolates_pruneAll style.inBody body
    rw [prune]
    split_ifs with hc
    · obtain ⟨record, hheader⟩ := header_of_expressible hc
      rw [writeAll_singleton]
      exact hbody.framed hheader
    · obtain ⟨refusal, hheader⟩ := header_of_not_expressible hc
      exact hbody.leftOut hheader

theorem isolates_pruneAll : ∀ (style : Style) (ps : List Patch),
    Isolates (writeAll style ps) (writeAll style (pruneAll ps))
  | _, [] => .of_silent rfl rfl
  | style, p :: ps => by
    rw [writeAll, pruneAll, writeAll_append]
    exact (isolates_prune style p).append (isolates_pruneAll style ps)

end

/-- Guards that are not expressible leave no trace in the lines. Without them nothing is reported;
and nothing is reported with them only if they make no difference at all. -/
theorem write_pruneAll (style : Style) (program : List Patch) :
    ((Writer.gecko style).write program).lines =
      ((Writer.gecko style).write (pruneAll program)).lines ∧
      ((Writer.gecko style).write (pruneAll program)).errors = [] ∧
      (((Writer.gecko style).write program).errors = [] ↔
        ((Writer.gecko style).write program).lines =
          ((Writer.gecko style).write (pruneAll program)).lines ∧
          ((Writer.gecko style).write program).warnings =
            ((Writer.gecko style).write (pruneAll program)).warnings ∧
          ((Writer.gecko style).write program).errors =
            ((Writer.gecko style).write (pruneAll program)).errors) := by
  have h := isolates_pruneAll style program
  have hlines := congrArg (List.map Record.render) h.lines
  refine ⟨hlines, h.errors, fun herrors => ?_, fun hequal => ?_⟩
  · exact ⟨hlines, h.warnings herrors, herrors.trans h.errors.symm⟩
  · exact hequal.2.2.trans h.errors

/-- A guard goes with the body that was all it had, and only what was left out of the body is
reported. -/
example :
    let inner : Patch := .guard ⟨.greaterThan, .s16, 1, 2⟩ [.write ⟨8, [1]⟩]
    let outer : Patch := .guard ⟨.equal, .u8, 0, 1⟩ [inner]
    (writeAll {} [outer]).lines = [] ∧
    (writeAll {} [outer]).errors = [.misaligned .s16 .greaterThan 1] := by
  decide +kernel

end PatchCode.Gecko
