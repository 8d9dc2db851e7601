import Mathlib.Tactic
import PatchCode.Proofs.Placement
import PatchCode.Proofs.Pruning
import PatchCode.Proofs.Recutting

/-! What leaves the assembler is well formed, and the passes keep it so: no write is empty, no block
stands among the patches, values fit their types, and masks and bit changes have types that allow
them. So the only comparisons that Gecko cannot express are those off their boundaries. -/

namespace PatchCode

/-- The value has no bits that the type has not. -/
def ValueType.Fits (type : ValueType) (value : UInt32) : Prop := value &&& type.mask = value

structure Condition.WellFormed (c : Condition) : Prop where
  fits : c.type.Fits c.value
  mask : c.comparison = .mask → c.type = .u8 ∨ c.type = .u16

structure Adjustment.WellFormed (a : Adjustment) : Prop where
  fits : a.type.Fits a.value
  bits : a.change = .bitSet ∨ a.change = .bitUnset → a.type = .u8 ∨ a.type = .u16 ∨ a.type = .u32

namespace Patch

/-- At every depth, writes hold bytes, guards and adjustments are well formed, and there are no
blocks. -/
inductive WellFormed : Patch → Prop
  | write {w : Write} (h : w.bytes ≠ []) : WellFormed (write w)
  | group {body : List Patch} (h : ∀ p ∈ body, WellFormed p) : WellFormed (group body)
  | guard {c : Condition} {body : List Patch} (hc : c.WellFormed) (h : ∀ p ∈ body, WellFormed p) :
    WellFormed (guard c body)
  | adjust {a : Adjustment} (h : a.WellFormed) : WellFormed (adjust a)

mutual

theorem wellFormed_flatten : ∀ {p : Patch}, WellFormed p → ∀ q ∈ flatten p, WellFormed q
  | .write _, h | .adjust _, h => List.forall_mem_singleton.mpr h
  | .group _, .group h => wellFormed_flattenAll h
  | .guard _ _, .guard hc h => List.forall_mem_singleton.mpr (.guard hc (wellFormed_flattenAll h))

theorem wellFormed_flattenAll :
    ∀ {ps : List Patch}, (∀ p ∈ ps, WellFormed p) → ∀ q ∈ flattenAll ps, WellFormed q
  | [], h => h
  | p :: ps, h => by
    obtain ⟨hp, hps⟩ := List.forall_mem_cons.mp h
    exact List.forall_mem_append.mpr ⟨wellFormed_flatten hp, wellFormed_flattenAll hps⟩

end

theorem wellFormed_joinFront {p : Patch} {ps : List Patch} (hp : WellFormed p)
    (hps : ∀ q ∈ ps, WellFormed q) :
    ∀ q ∈ joinFront p ps, WellFormed q := by
  have hcons : ∀ q ∈ p :: ps, WellFormed q := List.forall_mem_cons.mpr ⟨hp, hps⟩
  unfold joinFront
  split
  next w next ps =>
    split_ifs
    · cases hp with
      | write hw =>
        have hjoin : (w.join next).bytes ≠ [] := List.append_ne_nil_of_left_ne_nil hw _
        exact List.forall_mem_cons.mpr ⟨.write hjoin, (List.forall_mem_cons.mp hps).2⟩
    · exact hcons
  next => exact hcons

mutual

theorem wellFormed_merge : ∀ {p : Patch}, WellFormed p → WellFormed (merge p)
  | .write _, h | .adjust _, h => h
  | .group _, .group h => .group (wellFormed_mergeAll h)
  | .guard _ _, .guard hc h => .guard hc (wellFormed_mergeAll h)

theorem wellFormed_mergeAll :
    ∀ {ps : List Patch}, (∀ p ∈ ps, WellFormed p) → ∀ q ∈ mergeAll ps, WellFormed q
  | [], h => h
  | p :: ps, h => by
    obtain ⟨hp, hps⟩ := List.forall_mem_cons.mp h
    exact wellFormed_joinFront (wellFormed_merge hp) (wellFormed_mergeAll hps)

end

mutual

theorem wellFormed_realign : ∀ {p : Patch}, WellFormed p → ∀ q ∈ realign p, WellFormed q
  | .write w, .write h => by
    rw [realign, List.forall_mem_map]
    exact fun v hv => .write (filled_pieces w.pieces_realign h v hv)
  | .adjust _, h => List.forall_mem_singleton.mpr h
  | .group _, .group h => List.forall_mem_singleton.mpr (.group (wellFormed_realignAll h))
  | .guard _ _, .guard hc h => List.forall_mem_singleton.mpr (.guard hc (wellFormed_realignAll h))

theorem wellFormed_realignAll :
    ∀ {ps : List Patch}, (∀ p ∈ ps, WellFormed p) → ∀ q ∈ realignAll ps, WellFormed q
  | [], h => h
  | p :: ps, h => by
    obtain ⟨hp, hps⟩ := List.forall_mem_cons.mp h
    exact List.forall_mem_append.mpr ⟨wellFormed_realign hp, wellFormed_realignAll hps⟩

end

end Patch

namespace Simplification

theorem wellFormed_run (step : Simplification) {program : List Patch}
    (h : ∀ p ∈ program, p.WellFormed) :
    ∀ p ∈ step.run program, p.WellFormed := by
  cases step with
  | flatten => exact Patch.wellFormed_flattenAll h
  | merge => exact Patch.wellFormed_mergeAll h
  | realign => exact Patch.wellFormed_realignAll h

theorem wellFormed_runAll (steps : List Simplification) {program : List Patch}
    (h : ∀ p ∈ program, p.WellFormed) :
    ∀ p ∈ runAll steps program, p.WellFormed := by
  induction steps generalizing program with
  | nil => exact h
  | cons step steps ih => exact ih (wellFormed_run step h)

end Simplification

namespace Verb

theorem type_of_allows_mask {type : ValueType} (h : allows (compare .mask) type = true) :
    type = .u8 ∨ type = .u16 := by
  revert h
  cases type <;> decide

theorem type_of_allows_bits {kind : Change} {type : ValueType}
    (h : allows (change kind) type = true) (hkind : kind = .bitSet ∨ kind = .bitUnset) :
    type = .u8 ∨ type = .u16 ∨ type = .u32 := by
  revert h
  rcases hkind with rfl | rfl <;> cases type <;> decide

end Verb

namespace Statement

def Sound : Statement → Prop
  | opens (.guard _ comparison type value) => ∀ a, Condition.WellFormed ⟨comparison, type, a, value⟩
  | plain (.adjust _ change type value) => ∀ a, Adjustment.WellFormed ⟨change, type, a, value⟩
  | _ => True

theorem fits_value {type : ValueType} {token : String} {v : UInt32} (h : value type token = .ok v) :
    type.Fits v := by
  unfold value at h
  split_ifs at h with hfloat
  · -- A single is not cut to its type, which has all bits.
    cases type <;> cases hfloat
    exact UInt32.and_neg_one
  · obtain ⟨n, -, rfl⟩ := exists_of_map_eq_ok h
    rw [ValueType.Fits, UInt32.and_assoc, UInt32.and_self]

theorem sound_patch {name : String} {type : ValueType} {verb : Verb} {args : List String}
    {s : Statement} (h : patch name type verb args = .ok s) : s.Sound := by
  unfold patch at h
  split_ifs at h with hallows
  split at h
  next token =>
    obtain ⟨v, hv, rfl⟩ := exists_of_map_eq_ok h
    have hfits := fits_value hv
    cases verb with
    | compare comparison =>
      refine fun a => ⟨hfits, fun hmask => ?_⟩
      obtain rfl : comparison = .mask := hmask
      exact Verb.type_of_allows_mask hallows
    | change kind => exact fun a => ⟨hfits, Verb.type_of_allows_bits hallows⟩
  next => cases h

theorem sound_readPatch {first : String} {args : List String} {s : Statement}
    (h : readPatch first args = .ok s) :
    s.Sound := by
  unfold readPatch at h
  split at h
  next =>
    split at h
    · exact sound_patch h
    · cases h
  next =>
    split at h
    · exact sound_patch h
    · cases h

theorem sound_readRepeat {args : List String} {s : Statement}
    (h : readRepeat args = .ok s) : s.Sound := by
  unfold readRepeat at h
  split at h
  next token =>
    rcases hcount : Literal.integer token with fault | count <;> rw [hcount] at h
    · cases h
    · change (if count < 0 then _ else _) = _ at h
      split_ifs at h
      cases h
      trivial
  next => cases h

theorem sound_readDirective {tokens : List String} {s : Statement}
    (h : readDirective tokens = .ok s) : s.Sound := by
  unfold readDirective at h
  split at h
  · cases h
  · cases h
    trivial
  · exact sound_readRepeat h
  · exact sound_readPatch h

/-- Only patch directives could ask for what is not sound, and they are checked. -/
theorem sound_read {line : List Char} {s : Statement} (h : read line = .ok s) : s.Sound := by
  unfold read at h
  split at h
  next rest => exact sound_readDirective h
  next rest =>
    unfold readData at h
    dsimp only at h
    split at h
    · obtain ⟨bytes, -, rfl⟩ := exists_of_map_eq_ok h
      trivial
    · cases h
  next =>
    split at h
    · obtain ⟨n, -, rfl⟩ := exists_of_map_eq_ok h
      trivial
    · unfold readInstruction at h
      split at h
      · cases h
      · cases h
        trivial

end Statement

namespace Assembly

variable {encode : Encoder} {a stop : Address} {patches : List Patch}

def Sound (encode : Encoder) (item : Outline) : Prop :=
  ∀ {a patches stop}, (emit encode item a).result = .ok (patches, stop) →
    ∀ p ∈ patches, p.WellFormed

theorem wellFormed_emitPlain {act : Plain} (hact : (Statement.plain act).Sound)
    (h : (emitPlain encode a act).result = .ok (patches, stop)) : ∀ p ∈ patches, p.WellFormed := by
  cases act with
  | label target =>
    cases h
    exact List.forall_mem_nil _
  | data name bytes =>
    rw [emitPlain] at h
    split_ifs at h with hbytes <;> cases h
    · exact List.forall_mem_nil _
    · exact List.forall_mem_singleton.mpr (.write (by simpa using hbytes))
  | instruction mnemonic operands =>
    rw [emitPlain, Traced.result_bind] at h
    rcases hword : (encode mnemonic operands (a.alignUp 4)).result with fault | word <;>
      rw [hword] at h <;> cases h
    exact List.forall_mem_singleton.mpr (.write (List.cons_ne_nil _ _))
  | adjust name change type value =>
    cases h
    exact List.forall_mem_singleton.mpr (.adjust (hact a))

theorem wellFormed_emitAll {items : List Outline} (hitems : ∀ item ∈ items, Sound encode item)
    (h : (emitAll encode items a).result = .ok (patches, stop)) : ∀ p ∈ patches, p.WellFormed := by
  induction items generalizing a patches with
  | nil =>
    cases h
    exact List.forall_mem_nil _
  | cons item items ih =>
    rw [result_emitAll_cons] at h
    obtain ⟨front, b, back, hfront, hback, rfl⟩ := Yield.andThen_eq_ok h
    obtain ⟨hitem, hitems⟩ := List.forall_mem_cons.mp hitems
    exact List.forall_mem_append.mpr ⟨hitem hfront, ih hitems hback⟩

theorem sound_nest {body : List Outline} {head : Head} (hhead : (Statement.opens head).Sound)
    (hbody : ∀ item ∈ body, Sound encode item) (line : Source.Line) :
    Sound encode (.nest line head body) := by
  intro a patches stop h
  cases head with
  | guard name comparison type value =>
    rw [result_emit_guard] at h
    obtain ⟨⟨ps, b⟩, hps, heq⟩ := exists_of_map_eq_ok h
    cases heq
    exact List.forall_mem_singleton.mpr (.guard (hhead a) (wellFormed_emitAll hbody hps))
  | times n =>
    rcases Nat.eq_zero_or_pos n with rfl | hn
    · rw [result_emit_never] at h
      obtain ⟨⟨ps, b⟩, -, heq⟩ := exists_of_map_eq_ok h
      cases heq
      exact List.forall_mem_singleton.mpr (.group (List.forall_mem_nil _))
    · rw [result_emit_times _ _ _ _ hn] at h
      obtain ⟨⟨ps, b⟩, hps, heq⟩ := exists_of_map_eq_ok h
      cases heq
      exact List.forall_mem_singleton.mpr
        (.group (wellFormed_emitAll (Outline.forall_mem_copies hbody n) hps))

end Assembly

theorem wellFormed_of_assemble {encode : Encoder} {lines : List String} {program : List Patch}
    (h : (assemble encode lines).result = .ok program) : ∀ p ∈ program, p.WellFormed := by
  rw [result_assemble] at h
  obtain ⟨⟨patches, stop⟩, hemit, rfl⟩ := exists_of_map_eq_ok h
  refine Assembly.wellFormed_emitAll (Outline.Levels.Forall.items (Source.forall_levels ?_ ?_))
    hemit
  · intro line _ act hrole a patches stop h
    cases act with
    | ok act =>
      rw [Assembly.result_emit_plain] at h
      exact Assembly.wellFormed_emitPlain (Statement.sound_read (Role.read_of_leaf hrole)) h
    | error fault =>
      rw [Assembly.result_emit_refused] at h
      cases h
  · intro line _ head body hrole hbody
    exact Assembly.sound_nest (Statement.sound_read (Role.read_of_opens hrole)) hbody _

namespace Gecko

theorem errors_frame {c : Condition} {body : Listing Record} {refusal : Refusal}
    (h : refusal ∈ (frame c body).errors) : refusal ∈ body.errors ∨ header c = .error refusal := by
  unfold frame at h
  split_ifs at h
  · exact .inl h
  · cases hheader : header c with
    | ok record =>
      rw [hheader] at h
      exact .inl (by simpa [errors_remarks] using h)
    | error other =>
      rw [hheader] at h
      rcases List.mem_append.mp h with h | h
      · exact .inl h
      · obtain rfl := List.mem_singleton.mp h
        exact .inr rfl

mutual

theorem guard_of_error :
    ∀ {style : Style} {p : Patch} {refusal : Refusal}, refusal ∈ (write style p).errors →
    ∃ c, Mark.guard c ∈ p.marks ∧ header c = .error refusal
  | style, .write w, _, h => by
    rw [write, (silent_writeData style w).2] at h
    cases h
  | _, .adjust _, _, h => by cases h
  | _, .block _, _, h | _, .group _, _, h => guard_of_errors h
  | _, .guard c _, _, h => by
    rcases errors_frame h with h | hheader
    · obtain ⟨c', hc', hheader⟩ := guard_of_errors h
      exact ⟨c', List.mem_cons_of_mem _ hc', hheader⟩
    · exact ⟨c, List.mem_cons_self, hheader⟩

/-- Whatever is reported, some guard of the program has no header for that reason. -/
theorem guard_of_errors :
    ∀ {style : Style} {ps : List Patch} {refusal : Refusal}, refusal ∈ (writeAll style ps).errors →
    ∃ c, Mark.guard c ∈ Patch.allMarks ps ∧ header c = .error refusal
  | _, [], _, h => by cases h
  | _, p :: ps, _, h => by
    rcases List.mem_append.mp h with h | h
    · obtain ⟨c, hc, hheader⟩ := guard_of_error h
      exact ⟨c, List.mem_append_left _ hc, hheader⟩
    · obtain ⟨c, hc, hheader⟩ := guard_of_errors h
      exact ⟨c, List.mem_append_right _ hc, hheader⟩

end

/-- A well-formed comparison without a header is off its boundary. -/
theorem misaligned_of_wellFormed {c : Condition} (hc : c.WellFormed) {refusal : Refusal}
    (h : header c = .error refusal) :
    refusal = .misaligned c.type c.comparison c.address ∧ (c.type.size = 2 ∨ c.type.size = 4) ∧
      c.address.toNat % c.type.size ≠ 0 := by
  rcases header_cases c with ⟨-, record, hheader⟩ | ⟨hoff, hheader⟩ | ⟨hmask, hword, -⟩
  · rw [hheader] at h
    cases h
  · rw [hheader] at h
    cases h
    have hsize : c.type.size = 1 ∨ c.type.size = 2 ∨ c.type.size = 4 := by cases c.type <;> decide
    refine ⟨rfl, hsize.resolve_left fun hbyte => hoff ?_, hoff⟩
    rw [hbyte, Nat.mod_one]
  · rcases hc.mask hmask with htype | htype <;> rw [htype] at hword <;> cases hword

end Gecko

mutual

theorem Patch.wellFormed_mark :
    ∀ {p : Patch} {c : Condition}, WellFormed p → Mark.guard c ∈ marks p → c.WellFormed
  | .write _, _, _, h | .adjust _, _, _, h => by cases List.mem_singleton.mp h
  | .group _, _, .group hbody, h => wellFormed_marks hbody h
  | .guard _ _, _, .guard hc hbody, h => by
    rcases List.mem_cons.mp h with heq | h
    · cases heq
      exact hc
    · exact wellFormed_marks hbody h

theorem Patch.wellFormed_marks : ∀ {ps : List Patch} {c : Condition}, (∀ p ∈ ps, WellFormed p) →
    Mark.guard c ∈ allMarks ps → c.WellFormed
  | [], _, _, h => by cases h
  | p :: ps, _, hps, h => by
    obtain ⟨hp, hps⟩ := List.forall_mem_cons.mp hps
    rcases List.mem_append.mp h with h | h
    · exact wellFormed_mark hp h
    · exact wellFormed_marks hps h

end

/-- A program that has been assembled is well formed after any passes, and whatever the Gecko writer
leaves out of it is a comparison of two or four bytes off its boundary. -/
theorem wellFormed_assembled (encode : Encoder) (lines : List String) {program : List Patch}
    (h : (assemble encode lines).result = .ok program) (steps : List Simplification) :
    (∀ p ∈ Simplification.runAll steps program, p.WellFormed) ∧
      ∀ (style : Gecko.Style),
        ∀ refusal ∈ ((Writer.gecko style).write (Simplification.runAll steps program)).errors,
        ∃ c, Mark.guard c ∈ Patch.allMarks (Simplification.runAll steps program) ∧
          refusal = .misaligned c.type c.comparison c.address ∧
          (c.type.size = 2 ∨ c.type.size = 4) ∧
          c.address.toNat % c.type.size ≠ 0 := by
  have hprogram := Simplification.wellFormed_runAll steps (wellFormed_of_assemble h)
  refine ⟨hprogram, fun style refusal hrefusal => ?_⟩
  obtain ⟨c, hc, hheader⟩ := Gecko.guard_of_errors hrefusal
  exact ⟨c, hc, Gecko.misaligned_of_wellFormed (Patch.wellFormed_marks hprogram hc) hheader⟩

/-- A mask with too many bits, at an odd address the first time and at a multiple of four the
second, and a guard over bits at an odd address. -/
def oddComparisons : List String :=
  [".str \"\"", ".u8 1", "!repeat 2", "!u16mask 0x1FFFF", ".u8 2, 3, 4", "!end", "!end",
    "!s32 lessthan -1", "!u32bitset 7"]

theorem wellFormed_oddComparisons :
    ∃ program, (assemble powerPC oddComparisons).result = .ok program ∧
      (∀ p ∈ Simplification.runAll [.realign, .merge, .flatten] program, p.WellFormed) ∧
      ((Writer.gecko {}).write
          (Simplification.runAll [.realign, .merge, .flatten] program)).errors =
        [.misaligned .u16 .mask 1, .misaligned .s32 .lessThan 7] ∧
      ∀ refusal ∈ [Refusal.misaligned .u16 .mask 1, .misaligned .s32 .lessThan 7],
        ∃ c, Mark.guard c ∈
          Patch.allMarks (Simplification.runAll [.realign, .merge, .flatten] program) ∧
          refusal = .misaligned c.type c.comparison c.address ∧
          (c.type.size = 2 ∨ c.type.size = 4) ∧
          c.address.toNat % c.type.size ≠ 0 := by
  have heval : (assemble powerPC oddComparisons).result.map (fun program =>
      ((Writer.gecko {}).write (Simplification.runAll [.realign, .merge,
        .flatten] program)).errors) =
        .ok [.misaligned .u16 .mask 1, .misaligned .s32 .lessThan 7] := by decide +kernel
  obtain ⟨program, hprogram, herrors⟩ := exists_of_map_eq_ok heval
  obtain ⟨hformed, hrefusals⟩ :=
    wellFormed_assembled powerPC oddComparisons hprogram [.realign, .merge, .flatten]
  have hreported := hrefusals {}
  rw [herrors] at hreported
  exact ⟨program, hprogram, hformed, herrors, hreported⟩

end PatchCode
