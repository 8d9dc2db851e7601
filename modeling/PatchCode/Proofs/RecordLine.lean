import Mathlib.Tactic
import PatchCode.Proofs.Positional
import PatchCode.Proofs.Refusal
import PatchCode.Proofs.ReplayAppend

/-! Lines that can be replayed. The format of a line, two fields of eight hexadecimal digits with a
space between them, is stated apart from the reader. Replaying stops at the first line that is not
in the format, unless a line before it asks for what cannot be replayed; but the reader also takes a
plus sign for the first digit of a field. -/

namespace PatchCode

namespace Record

/-- Eight hexadecimal digits of either case. -/
def IsField (cs : List Char) : Prop := cs.length = 8 ∧ ∀ c ∈ cs, Text.digitValue c < 16

/-- A plus sign in place of the first of eight digits, which is not in the format. -/
def IsPlusField (cs : List Char) : Prop :=
  ∃ ds, cs = '+' :: ds ∧ ds.length = 7 ∧ ∀ c ∈ ds, Text.digitValue c < 16

def WellFormed (line : String) : Prop :=
  ∃ left right, Text.trim line.toList = left ++ ' ' :: right ∧ IsField left ∧ IsField right

def Readable (line : String) : Prop :=
  ∃ left right, Text.trim line.toList = left ++ ' ' :: right ∧
    (IsField left ∨ IsPlusField left) ∧ (IsField right ∨ IsPlusField right)

variable {cs : List Char} {line : String}

theorem ofDigits?_isSome_iff :
    (Text.ofDigits? 16 cs).isSome ↔ cs ≠ [] ∧ ∀ c ∈ cs, Text.digitValue c < 16 := by
  simp [Option.isSome_iff_exists, Text.ofDigits?_eq_some_iff (le_refl 16)]

theorem field?_isSome_iff : (field? cs).isSome ↔ IsField cs ∨ IsPlusField cs := by
  have hread : (Text.ofUnsigned? 16 cs).isSome ↔
      (Text.ofDigits? 16 cs).isSome ∨ ∃ ds, cs = '+' :: ds ∧ (Text.ofDigits? 16 ds).isSome := by
    simp only [Option.isSome_iff_exists, Text.ofUnsigned?_eq_some_iff (le_refl 16)]
    constructor
    · rintro ⟨n, h | ⟨ds, hds, h⟩⟩
      · exact .inl ⟨n, h⟩
      · exact .inr ⟨ds, hds, n, h⟩
    · rintro (⟨n, h⟩ | ⟨ds, hds, n, h⟩)
      · exact ⟨n, .inl h⟩
      · exact ⟨n, .inr ⟨ds, hds, h⟩⟩
  rw [field?]
  split_ifs with hlength
  · rw [Option.isSome_map, hread, ofDigits?_isSome_iff]
    constructor
    · rintro (⟨-, hdigits⟩ | ⟨ds, rfl, hds⟩)
      · exact .inl ⟨hlength, hdigits⟩
      · exact .inr ⟨ds, rfl, by simpa using hlength, (ofDigits?_isSome_iff.mp hds).2⟩
    · rintro (⟨-, hdigits⟩ | ⟨ds, rfl, hds, hdigits⟩)
      · exact .inl ⟨List.ne_nil_of_length_pos (by omega), hdigits⟩
      · exact .inr ⟨ds, rfl,
          ofDigits?_isSome_iff.mpr ⟨List.ne_nil_of_length_pos (by omega), hdigits⟩⟩
  · simp only [Option.isSome_none, Bool.false_eq_true, false_iff, not_or]
    refine ⟨fun h => hlength h.1, ?_⟩
    rintro ⟨ds, rfl, hds, -⟩
    exact hlength (by simp [hds])

theorem space_notMem (h : IsField cs ∨ IsPlusField cs) : ' ' ∉ cs := by
  have hdigits : ∀ ds : List Char, (∀ c ∈ ds, Text.digitValue c < 16) → ' ' ∉ ds :=
    fun ds hds hspace => absurd (hds ' ' hspace) (by decide)
  rcases h with ⟨-, h⟩ | ⟨ds, rfl, -, h⟩
  · exact hdigits cs h
  · rw [List.mem_cons, not_or]
    exact ⟨by decide, hdigits ds h⟩

/-- The reader divides a line at its first space. -/
theorem ofLine?_isSome_iff : (ofLine? line).isSome ↔ Readable line := by
  rw [ofLine?, Readable]
  generalize Text.trim line.toList = cs
  constructor
  · intro h
    have hcs : cs.takeWhile (· ≠ ' ') ++ cs.dropWhile (· ≠ ' ') = cs :=
      List.takeWhile_append_dropWhile
    have hhead := List.head?_dropWhile_not (· ≠ ' ') cs
    revert h
    cases hdrop : cs.dropWhile (· ≠ ' ') with
    | nil => simp
    | cons d right =>
      rw [hdrop] at hcs hhead
      obtain rfl : d = ' ' := by simpa using hhead
      intro h
      have hfields : (field? (cs.takeWhile (· ≠ ' '))).isSome ∧ (field? right).isSome := by
        dsimp only at h
        split at h
        next hl hr => exact ⟨Option.isSome_of_eq_some hl, Option.isSome_of_eq_some hr⟩
        next => cases h
      exact ⟨_, right, hcs.symm, field?_isSome_iff.mp hfields.1, field?_isSome_iff.mp hfields.2⟩
  · rintro ⟨left, right, rfl, hleft, hright⟩
    have hspace : ∀ c ∈ left, decide (c ≠ ' ') = true :=
      fun c hc => decide_eq_true fun heq => space_notMem hleft (heq ▸ hc)
    have htake : (left ++ ' ' :: right).takeWhile (· ≠ ' ') = left := by
      rw [List.takeWhile_append_of_pos hspace]
      simp
    have hdrop : (left ++ ' ' :: right).dropWhile (· ≠ ' ') = ' ' :: right := by
      rw [List.dropWhile_append_of_pos hspace]
      simp
    obtain ⟨l, hl⟩ := Option.isSome_iff_exists.mp (field?_isSome_iff.mpr hleft)
    obtain ⟨r, hr⟩ := Option.isSome_iff_exists.mp (field?_isSome_iff.mpr hright)
    simp only [htake, hdrop, hl, hr, Option.isSome_some]

instance : Decidable (Readable line) := decidable_of_iff _ ofLine?_isSome_iff

theorem plus_notMem_of_isField (h : IsField cs) : '+' ∉ cs :=
  fun hplus => absurd (h.2 '+' hplus) (by decide)

/-- Only plus signs keep what can be read out of the format. -/
theorem wellFormed_iff : WellFormed line ↔ Readable line ∧ '+' ∉ Text.trim line.toList := by
  constructor
  · rintro ⟨left, right, htrim, hleft, hright⟩
    refine ⟨⟨left, right, htrim, .inl hleft, .inl hright⟩, ?_⟩
    simp [htrim, plus_notMem_of_isField hleft, plus_notMem_of_isField hright]
  · rintro ⟨⟨left, right, htrim, hleft, hright⟩, hplus⟩
    have hnot : ∀ field : List Char, (∀ c ∈ field, c ∈ Text.trim line.toList) →
        ¬IsPlusField field := by
      rintro field hmem ⟨ds, rfl, -⟩
      exact hplus (hmem '+' List.mem_cons_self)
    refine ⟨left, right, htrim, hleft.resolve_right (hnot left ?_),
      hright.resolve_right (hnot right ?_)⟩
    · intro c hc
      simp [htrim, hc]
    · intro c hc
      simp [htrim, hc]

end Record

namespace Replay

variable {dialect : Dialect} {s t : State} {line : String} {lines : List String}

theorem readable_of_step (h : step dialect s line = .ok t) : Record.Readable line := by
  rw [← Record.ofLine?_isSome_iff]
  unfold step at h
  cases hread : Record.ofLine? line with
  | none => rw [hread] at h; cases h
  | some r => rfl

theorem step_of_not_readable (dialect : Dialect) (s : State) (h : ¬Record.Readable line) :
    step dialect s line = .error (.malformed line) := by
  rw [← Record.ofLine?_isSome_iff, Option.not_isSome_iff_eq_none] at h
  rw [step, h]

/-- A step fails for its own line. -/
theorem fault_of_step {fault : ReplayFault} (h : step dialect s line = .error fault) :
    fault = .malformed line ∧ ¬Record.Readable line ∨ ∃ code, fault = .unsupported code line := by
  rw [← Record.ofLine?_isSome_iff]
  unfold step at h
  split at h
  next hread =>
    obtain rfl := Except.error.inj h
    exact .inl ⟨rfl, by simp [hread]⟩
  next r hread =>
    refine .inr ?_
    split at h
    next => cases h
    next =>
      split at h
      next => cases h
      next => cases h
      next code _ => exact ⟨code, (Except.error.inj h).symm⟩

theorem readable_of_foldlM (h : lines.foldlM (step dialect) s = .ok t) :
    ∀ line ∈ lines, Record.Readable line := by
  induction lines generalizing s with
  | nil => exact List.forall_mem_nil _
  | cons line lines ih =>
    rw [List.foldlM_cons] at h
    obtain ⟨u, hline, hlines⟩ := bind_eq_ok_iff.mp h
    exact List.forall_mem_cons.mpr ⟨readable_of_step hline, ih hlines⟩

/-- Replaying stops at a line, and no line before it is out of the format. -/
theorem exists_of_foldlM_eq_error {fault : ReplayFault}
    (h : lines.foldlM (step dialect) s = .error fault) :
    ∃ front line back, lines = front ++ line :: back ∧
      (∀ earlier ∈ front, Record.Readable earlier) ∧
      (fault = .malformed line ∧ ¬Record.Readable line ∨
        ∃ code, fault = .unsupported code line) := by
  induction lines generalizing s with
  | nil => cases h
  | cons line lines ih =>
    rw [List.foldlM_cons] at h
    rcases bind_eq_error_iff.mp h with hline | ⟨u, hline, hlines⟩
    · exact ⟨[], line, lines, rfl, List.forall_mem_nil _, fault_of_step hline⟩
    · obtain ⟨front, bad, back, rfl, hfront, hbad⟩ := ih hlines
      exact ⟨line :: front, bad, back, rfl,
        List.forall_mem_cons.mpr ⟨readable_of_step hline, hfront⟩, hbad⟩

/-- Lines fail at one of them, or at their end. -/
theorem foldlM_of_writes_eq_error (hd : dialect ≠ .bytes) {fault : ReplayFault}
    (h : writes dialect lines = .error fault) :
    lines.foldlM (step dialect) {} = .error fault ∨ ∃ address, fault = .truncated address := by
  rw [writes_of_ne hd] at h
  rcases bind_eq_error_iff.mp h with hfold | ⟨⟨done, _ | p⟩, -, hfinish⟩
  · exact .inl hfold
  · cases hfinish
  · exact .inr ⟨p.address, (Except.error.inj hfinish).symm⟩

theorem writes_of_foldlM_eq_error (hd : dialect ≠ .bytes) {fault : ReplayFault}
    (h : lines.foldlM (step dialect) {} = .error fault) : writes dialect lines = .error fault := by
  rw [writes_of_ne hd, h]
  rfl

theorem ne_truncated_of_foldlM {fault : ReplayFault}
    (h : lines.foldlM (step dialect) s = .error fault) (address : Address) :
    fault ≠ .truncated address := by
  obtain ⟨front, line, back, -, -, ⟨rfl, -⟩ | ⟨code, rfl⟩⟩ := exists_of_foldlM_eq_error h <;> simp

end Replay

/-- Lines that are replayed can all be read. One that cannot is refused as it stands, unless a line
before it is refused, and the line that is refused as malformed is the first that cannot be read.
The lines of the format are those that can be read and have no plus sign. -/
theorem replay_lines {dialect : Dialect} (hd : dialect ≠ .bytes) (lines : List String) :
    (∀ image, replay dialect lines = .ok image → ∀ line ∈ lines, Record.Readable line) ∧
    (∀ front line back, lines = front ++ line :: back → ¬Record.Readable line →
      replay dialect lines = .error (.malformed line) ∨
        ∃ fault, replay dialect front = .error fault ∧ (∀ address, fault ≠ .truncated address) ∧
          replay dialect lines = .error fault) ∧
    (∀ line, replay dialect lines = .error (.malformed line) →
      ∃ front back, lines = front ++ line :: back ∧ (∀ earlier ∈ front, Record.Readable earlier) ∧
      ¬Record.Readable line) ∧
    ∀ line, Record.WellFormed line ↔ Record.Readable line ∧ '+' ∉ Text.trim line.toList := by
  refine ⟨fun image h => ?_, ?_, fun line h => ?_, fun line => Record.wellFormed_iff⟩
  · obtain ⟨ws, hws, -⟩ := replay_eq_ok_iff.mp h
    exact Replay.readable_of_foldlM (Replay.foldlM_of_writes hws).2
  · rintro front line back rfl hline
    simp only [replay_eq_error_iff]
    cases hfront : front.foldlM (Replay.step dialect) {} with
    | ok s =>
      refine .inl (Replay.writes_of_foldlM_eq_error hd ?_)
      rw [List.foldlM_append, hfront]
      change (line :: back).foldlM (Replay.step dialect) s = _
      rw [List.foldlM_cons, Replay.step_of_not_readable dialect s hline]
      rfl
    | error fault =>
      have hopen := Replay.ne_truncated_of_foldlM hfront
      have hwrites := Replay.writes_of_foldlM_eq_error hd hfront
      exact .inr ⟨fault, hwrites, hopen, Replay.writes_append_of_error hwrites hopen _⟩
  · rcases Replay.foldlM_of_writes_eq_error hd (replay_eq_error_iff.mp h) with hfold |
      ⟨address, heq⟩
    · obtain ⟨front, bad, back, rfl, hfront, ⟨heq, hbad⟩ | ⟨code, heq⟩⟩ :=
        Replay.exists_of_foldlM_eq_error hfold
      · obtain rfl : line = bad := ReplayFault.malformed.inj heq
        exact ⟨front, back, rfl, hfront, hbad⟩
      · cases heq
    · cases heq

/-- The second line is one digit short, the third asks for what cannot be replayed. -/
def strayLines : List String := ["\t04000000 0000000a ", "04000000 0000000", "0C000000 00000000"]

theorem replay_strayLines :
    (Dialect.gecko ≠ .bytes ∧ ¬Record.Readable "04000000 0000000") ∧
      replay .gecko ["\t04000000 0000000a "] = .ok (.ofWrites [⟨0, [0, 0, 0, 10]⟩]) ∧
      Record.Readable "\t04000000 0000000a " ∧
      replay .gecko strayLines = .error (.malformed "04000000 0000000") ∧
      (replay .gecko strayLines = .error (.malformed "04000000 0000000") ∨
        ∃ fault, replay .gecko ["\t04000000 0000000a "] = .error fault ∧
        (∀ address, fault ≠ .truncated address) ∧
          replay .gecko strayLines = .error fault) ∧
      ∃ front back, strayLines = front ++ "04000000 0000000" :: back ∧
        (∀ earlier ∈ front, Record.Readable earlier) ∧ ¬Record.Readable "04000000 0000000" := by
  have hdialect : Dialect.gecko ≠ .bytes := by decide
  have hshort : ¬Record.Readable "04000000 0000000" := by decide +kernel
  have hword : replay .gecko ["\t04000000 0000000a "] = .ok (.ofWrites [⟨0, [0, 0, 0, 10]⟩]) :=
    replay_eq_ok_iff.mpr ⟨_, by decide +kernel, rfl⟩
  have hstray : replay .gecko strayLines = .error (.malformed "04000000 0000000") :=
    replay_eq_error_iff.mpr (by decide +kernel)
  exact ⟨⟨hdialect, hshort⟩, hword,
    (replay_lines hdialect _).1 _ hword _ (List.mem_singleton_self _), hstray,
    (replay_lines hdialect strayLines).2.1 _ _ _ rfl hshort,
    (replay_lines hdialect strayLines).2.2.1 _ hstray⟩

/-- A plus sign in place of the first digit. -/
theorem replay_plusField :
    replay .actionReplay ["+4000000 00000001"] = .ok (.ofWrites [⟨0, [0, 0, 0, 1]⟩]) ∧
      ¬Record.WellFormed "+4000000 00000001" := by
  refine ⟨replay_eq_ok_iff.mpr ⟨_, by decide +kernel, rfl⟩, ?_⟩
  rw [Record.wellFormed_iff]
  exact fun h => h.2 (by decide)

end PatchCode
