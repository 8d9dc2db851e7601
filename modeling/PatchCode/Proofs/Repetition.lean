import Mathlib.Tactic
import PatchCode.Proofs.Faults
import PatchCode.Proofs.Numeral

/-! A repeat is its body written out. The body may hold anything that closes what it opens, and what
stands before it may leave bodies open, so that the repeat itself is done again and again. The two
programs are compared level by level: where lines agree, so do all programs that go on with them. -/

namespace PatchCode

namespace Yield

def flat (y : Yield) : Yield := y.map fun (patches, stop) => (Patch.flattenAll patches, stop)

theorem flat_andThen (y : Yield) (next : Address → Yield) :
    (y.andThen next).flat = y.flat.andThen fun a => (next a).flat := by
  rcases y with fault | ⟨ps, a⟩
  · rfl
  change (andThen (.ok (ps, a)) next).flat = andThen (.ok (Patch.flattenAll ps, a)) _
  rw [ok_andThen, ok_andThen]
  rcases next a with fault | ⟨qs, b⟩
  · rfl
  · exact congrArg (fun rs => Except.ok (rs, b)) (Patch.flattenAll_append ps qs)

theorem eq_error_of_flat {y : Yield} {fault : Fault} (h : y.flat = flat (.error fault)) :
    y = .error fault := by
  rcases y with fault' | ⟨ps, a⟩ <;> cases h
  rfl

theorem eq_ok_of_flat {y : Yield} {ps : List Patch} {a : Address}
    (h : y.flat = flat (.ok (ps, a))) :
    ∃ qs, y = .ok (qs, a) := by
  rcases y with fault | ⟨qs, b⟩
  · cases h
  · obtain ⟨-, rfl⟩ := Prod.mk.inj (Except.ok.inj h)
    exact ⟨qs, rfl⟩

end Yield

namespace Assembly

/-- From every address on the items yield the same, but for the repeat groups. -/
def Agree (encode : Encoder) (xs ys : List Outline) : Prop :=
  ∀ a, Yield.flat (emitAll encode xs a).result = Yield.flat (emitAll encode ys a).result

def Fail (encode : Encoder) (xs ys : List Outline) : Prop :=
  ∀ a, ∃ fault, (emitAll encode xs a).result = .error fault ∧
    (emitAll encode ys a).result = .error fault

section Items

variable {encode : Encoder} {xs ys xs' ys' : List Outline}

theorem Agree.refl : Agree encode xs xs := fun _ => rfl

theorem Agree.append (h : Agree encode xs ys) (h' : Agree encode xs' ys') :
    Agree encode (xs ++ xs') (ys ++ ys') := by
  intro a
  rw [result_emitAll_append, result_emitAll_append, Yield.flat_andThen, Yield.flat_andThen, h a]
  simp only [h' _]

theorem Agree.replicate (h : Agree encode xs ys) (n : Nat) :
    Agree encode (List.replicate n xs).flatten (List.replicate n ys).flatten := by
  induction n with
  | zero => exact .refl
  | succ n ih => exact h.append ih

theorem flat_emit_times (line : Source.Line) (body : List Outline) {n : Nat} (hn : 0 < n)
    (a : Address) :
    Yield.flat (emit encode (.nest line (.times n) body) a).result =
      Yield.flat (emitAll encode (List.replicate n body).flatten a).result := by
  rw [result_emit_times _ _ _ _ hn]
  rcases (emitAll encode (List.replicate n body).flatten a).result with fault | ⟨ps, stop⟩
  · rfl
  · exact congrArg (fun ps => Except.ok (ps, stop)) (Patch.flattenAll_singleton (.group ps))

theorem agree_times (line : Source.Line) (body : List Outline) {n : Nat} (hn : 0 < n) :
    Agree encode [.nest line (.times n) body] (List.replicate n body).flatten := by
  intro a
  rw [result_emitAll_singleton, flat_emit_times line body hn]

theorem flat_emit_guard (line : Source.Line) (name : String) (comparison : Comparison)
    (type : ValueType) (value : UInt32) (body : List Outline) (a : Address) :
    Yield.flat (emit encode (.nest line (.guard name comparison type value) body) a).result =
      (Yield.flat (emitAll encode body a).result).map fun (ps, stop) =>
        ([.guard ⟨comparison, type, a, value⟩ ps], stop) := by
  rw [result_emit_guard]
  rcases (emitAll encode body a).result with fault | ⟨ps, stop⟩ <;> rfl

theorem flat_emit_never (line : Source.Line) (body : List Outline) (a : Address) :
    Yield.flat (emit encode (.nest line (.times 0) body) a).result =
      (Yield.flat (emitAll encode body a).result).map fun _ => ([], a) := by
  rw [result_emit_never]
  rcases (emitAll encode body a).result with fault | ⟨ps, stop⟩ <;> rfl

/-- A sound body that is never done yields nothing from any address on. -/
theorem agree_never (line : Source.Line) {body : List Outline}
    (h : Outline.firstFault? body = none) :
    Agree powerPC [.nest line (.times 0) body] [] := by
  intro a
  have hsound := fault_emitAll body a
  rw [result_emitAll_singleton, flat_emit_never]
  cases hbody : (emitAll powerPC body a).result with
  | ok out => rfl
  | error fault =>
    rw [hbody, h] at hsound
    cases hsound

theorem Agree.nest (h : Agree encode xs ys) (line : Source.Line) (head : Head) :
    Agree encode [.nest line head xs] [.nest line head ys] := by
  intro a
  rw [result_emitAll_singleton, result_emitAll_singleton]
  cases head with
  | guard name comparison type value => rw [flat_emit_guard, flat_emit_guard, h a]
  | times n =>
    rcases Nat.eq_zero_or_pos n with rfl | hn
    · rw [flat_emit_never, flat_emit_never, h a]
    · rw [flat_emit_times line xs hn, flat_emit_times line ys hn, h.replicate n a]

/-- A body is read at least once, and first from the address of its opening line. -/
theorem emit_nest_of_error {body : List Outline} {a : Address} {fault : Fault}
    (h : (emitAll encode body a).result = .error fault) (line : Source.Line) (head : Head) :
    (emit encode (.nest line head body) a).result = .error fault := by
  cases head with
  | guard name comparison type value => rw [result_emit_guard, h]; rfl
  | times n =>
    cases n with
    | zero => rw [result_emit_never, h]; rfl
    | succ n =>
      rw [result_emit_times _ _ _ _ n.succ_pos, List.replicate_succ, List.flatten_cons,
        result_emitAll_append, h]
      rfl

theorem Fail.symm (h : Fail encode xs ys) : Fail encode ys xs := by
  intro a
  obtain ⟨fault, hx, hy⟩ := h a
  exact ⟨fault, hy, hx⟩

theorem Fail.enclose (h : Fail encode xs ys) (line : Source.Line) (head : Head)
    (more : List Outline) :
    Fail encode (.nest line head xs :: more) ys := by
  intro a
  obtain ⟨fault, hx, hy⟩ := h a
  refine ⟨fault, ?_, hy⟩
  rw [result_emitAll_cons, emit_nest_of_error hx, Yield.error_andThen]

/-- Behind items that agree, a failure is met from the same address. -/
theorem Fail.append (h : Agree encode xs ys) (h' : Fail encode xs' ys') :
    Fail encode (xs ++ xs') (ys ++ ys') := by
  intro a
  have hagree := h a
  rw [result_emitAll_append, result_emitAll_append]
  cases hx : (emitAll encode xs a).result with
  | error fault =>
    rw [hx] at hagree
    exact ⟨fault, rfl, by rw [Yield.eq_error_of_flat hagree.symm, Yield.error_andThen]⟩
  | ok out =>
    obtain ⟨ps, b⟩ := out
    rw [hx] at hagree
    obtain ⟨qs, hy⟩ := Yield.eq_ok_of_flat hagree.symm
    obtain ⟨fault, hx', hy'⟩ := h' b
    refine ⟨fault, ?_, ?_⟩
    · rw [Yield.ok_andThen, hx']; rfl
    · rw [hy, Yield.ok_andThen, hy']; rfl

theorem Fail.agree (h : Fail encode xs ys) : Agree encode xs ys := by
  intro a
  obtain ⟨fault, hx, hy⟩ := h a
  rw [hx, hy]

end Items

end Assembly

namespace Outline.Levels

def prepend (items : List Outline) : Levels → Levels
  | last xs => last (items ++ xs)
  | closed xs rest next => closed (items ++ xs) rest next

theorem prepend_nil (levels : Levels) : levels.prepend [] = levels := by
  cases levels <;> rfl

theorem prepend_prepend (xs ys : List Outline) (levels : Levels) :
    (levels.prepend ys).prepend xs = levels.prepend (xs ++ ys) := by
  cases levels <;> simp only [prepend, List.append_assoc]

theorem push_eq_prepend (item : Outline) (levels : Levels) :
    levels.push item = levels.prepend [item] := by
  cases levels <;> rfl

@[simp] theorem items_prepend (xs : List Outline) (levels : Levels) :
    (levels.prepend xs).items = xs ++ levels.items := by
  cases levels <;> rfl

theorem items_nest (line : Source.Line) (head : Head) (levels : Levels) :
    ∃ more, (levels.nest line head).items = .nest line head levels.items :: more := by
  cases levels with
  | last body => exact ⟨[], rfl⟩
  | closed body rest next => exact ⟨next.items, by rw [nest, push_eq_prepend, items_prepend]; rfl⟩

theorem fail_nest {encode : Encoder} {levels : Levels} {ys : List Outline}
    (h : Assembly.Fail encode levels.items ys) (line : Source.Line) (head : Head) :
    Assembly.Fail encode (levels.nest line head).items ys := by
  obtain ⟨more, hitems⟩ := items_nest line head levels
  rw [hitems]
  exact h.enclose line head more

/-- The levels agree one by one, up to one at which both are refused. -/
inductive Agree (encode : Encoder) : Levels → Levels → Prop
  | last {xs ys} (h : Assembly.Agree encode xs ys) : Agree encode (last xs) (last ys)
  | closed {xs ys rest rest' next next'} (h : Assembly.Agree encode xs ys)
      (hnext : Agree encode next next') :
    Agree encode (closed xs rest next) (closed ys rest' next')
  | failed {l l' : Levels} (h : Assembly.Fail encode l.items l'.items) : Agree encode l l'

namespace Agree

variable {encode : Encoder} {l l' : Levels}

theorem refl : ∀ l : Levels, Agree encode l l
  | .last _ => .last .refl
  | .closed _ _ next => .closed .refl (refl next)

theorem items (h : Agree encode l l') : Assembly.Agree encode l.items l'.items := by
  cases h with
  | last h | closed h _ => exact h
  | failed h => exact h.agree

theorem prepend {xs ys : List Outline} (hxs : Assembly.Agree encode xs ys) (h : Agree encode l l') :
    Agree encode (l.prepend xs) (l'.prepend ys) := by
  cases h with
  | last h => exact .last (hxs.append h)
  | closed h hnext => exact .closed (hxs.append h) hnext
  | failed h =>
    refine .failed ?_
    rw [items_prepend, items_prepend]
    exact .append hxs h

theorem nest (line : Source.Line) (head : Head) (h : Agree encode l l') :
    Agree encode (l.nest line head) (l'.nest line head) := by
  cases h with
  | last h => exact .last (h.nest line head)
  | closed h hnext =>
    simp only [Levels.nest, push_eq_prepend]
    exact hnext.prepend (h.nest line head)
  | failed h => exact .failed (fail_nest (fail_nest h line head).symm line head).symm

end Agree

end Outline.Levels

namespace Source

section Lines

variable {line : String} (rest : List String)

theorem levels_of_blank (h : role line = .blank) : levels (line :: rest) = levels rest := by
  rw [levels_cons, h]

theorem levels_of_leaf {act : Except Fault Plain} (h : role line = .leaf act) :
    levels (line :: rest) = (levels rest).prepend [.leaf ⟨0, clean line⟩ act] := by
  rw [levels_cons, h, ← Outline.Levels.push_eq_prepend]

theorem levels_of_opens {head : Head} (h : role line = .opens head) :
    levels (line :: rest) = (levels rest).nest ⟨0, clean line⟩ head := by
  rw [levels_cons, h]

theorem levels_of_closes (h : role line = .closes) :
    levels (line :: rest) = .closed [] (unnumbered rest) (levels rest) := by
  rw [levels_cons, h]

end Lines

/-- Lines that agree still do so behind any others. -/
theorem agree_levels_append {encode : Encoder} {xs ys : List String}
    (h : Outline.Levels.Agree encode (levels xs) (levels ys)) (front : List String) :
    Outline.Levels.Agree encode (levels (front ++ xs)) (levels (front ++ ys)) := by
  induction front with
  | nil => exact h
  | cons line front ih =>
    rw [List.cons_append, List.cons_append]
    cases hrole : role line with
    | blank =>
      rw [levels_of_blank _ hrole, levels_of_blank _ hrole]
      exact ih
    | leaf act =>
      rw [levels_of_leaf _ hrole, levels_of_leaf _ hrole]
      exact ih.prepend .refl
    | opens head =>
      rw [levels_of_opens _ hrole, levels_of_opens _ hrole]
      exact ih.nest _ head
    | closes =>
      rw [levels_of_closes _ hrole, levels_of_closes _ hrole]
      exact .closed .refl ih

end Source

theorem flatten_assemble_of_agree {encode : Encoder} {xs ys : List String}
    (h : Outline.Levels.Agree encode (Source.levels xs) (Source.levels ys)) :
    (assemble encode xs).result.map Patch.flattenAll =
      (assemble encode ys).result.map Patch.flattenAll := by
  have hflat : ∀ lines, (assemble encode lines).result.map Patch.flattenAll =
      (Yield.flat (Assembly.emitAll encode (Source.levels lines).items 0).result).map Prod.fst := by
    intro lines
    rw [result_assemble]
    rcases (Assembly.emitAll encode (Source.levels lines).items 0).result with fault | out
    all_goals rfl
  rw [hflat, hflat, h.items 0]

/-- Lines that close what they open. A line that is refused where it would open a body may be taken
either way: as one of a pair, or as standing alone. -/
inductive Balanced : List String → Prop
  | nil : Balanced []
  | blank {line} (h : Source.role line = .blank) : Balanced [line]
  | leaf {line act} (h : Source.role line = .leaf act) : Balanced [line]
  | nest {opening head body closing} (h : Source.role opening = .opens head) (hbody : Balanced body)
    (hclosing : Source.role closing = .closes) : Balanced (opening :: (body ++ [closing]))
  | refused {opening fault body closing} (h : Source.role opening = .leaf (.error fault))
      (hbody : Balanced body)
    (hclosing : Source.role closing = .closes) : Balanced (opening :: (body ++ [closing]))
  | append {front back} (hfront : Balanced front) (hback : Balanced back) : Balanced (front ++ back)

namespace Source

open Outline (Levels)

/-- The lines come to items of their own, whatever follows. -/
def Splices (body : List String) (items : List Outline) : Prop :=
  ∀ rest, levels (body ++ rest) = (levels rest).prepend items

def Breaks (encode : Encoder) (body : List String) : Prop :=
  ∀ rest rest', Assembly.Fail encode (levels (body ++ rest)).items (levels (body ++ rest')).items

section Bodies

variable {encode : Encoder} {opening closing : String} {head : Head} {front back body : List String}
  {items items' : List Outline}

theorem Splices.nil : Splices [] [] := fun rest => (Levels.prepend_nil (levels rest)).symm

theorem Splices.append (h : Splices front items) (h' : Splices back items') :
    Splices (front ++ back) (items ++ items') := by
  intro rest
  rw [List.append_assoc, h, h', Levels.prepend_prepend]

theorem Splices.replicate (h : Splices body items) (n : Nat) :
    Splices (List.replicate n body).flatten (List.replicate n items).flatten := by
  induction n with
  | zero => exact .nil
  | succ n ih => exact h.append ih

theorem Splices.enclose (h : Splices body items) (hopening : role opening = .opens head)
    (hclosing : role closing = .closes) :
    Splices (opening :: (body ++ [closing])) [.nest ⟨0, clean opening⟩ head items] := by
  intro rest
  rw [List.cons_append, List.append_assoc, List.singleton_append, levels_of_opens _ hopening, h,
    levels_of_closes _ hclosing]
  simp only [Levels.prepend, Levels.nest, List.append_nil, Levels.push_eq_prepend]

theorem Breaks.append (h : Breaks encode front) (back : List String) :
    Breaks encode (front ++ back) := by
  intro rest rest'
  rw [List.append_assoc, List.append_assoc]
  exact h _ _

theorem Splices.append_breaks (h : Splices front items) (h' : Breaks encode back) :
    Breaks encode (front ++ back) := by
  intro rest rest'
  rw [List.append_assoc, List.append_assoc, h, h, Levels.items_prepend, Levels.items_prepend]
  exact .append .refl (h' rest rest')

theorem fail_levels_cons {xs : List String} {ys : List Outline}
    (hopening : role opening = .opens head) (h : Assembly.Fail encode (levels xs).items ys) :
    Assembly.Fail encode (levels (opening :: xs)).items ys := by
  rw [levels_of_opens _ hopening]
  exact Levels.fail_nest h _ head

theorem Breaks.enclose (h : Breaks encode body) (hopening : role opening = .opens head)
    (more : List String) :
    Breaks encode (opening :: (body ++ more)) := by
  intro rest rest'
  have hfail := h.append more rest rest'
  exact (fail_levels_cons hopening (fail_levels_cons hopening hfail).symm).symm

theorem breaks_of_refused {fault : Fault} (h : role opening = .leaf (.error fault))
    (more : List String) :
    Breaks encode (opening :: more) := by
  intro rest rest' a
  refine ⟨fault, ?_, ?_⟩
  all_goals
    rw [List.cons_append, levels_of_leaf _ h, Levels.items_prepend, List.singleton_append,
      Assembly.result_emitAll_cons, Assembly.result_emit_refused, Yield.error_andThen]

end Bodies

end Source

/-- What closes what it opens is one run of items, unless a line of it is refused. -/
theorem Balanced.splices_or_breaks (encode : Encoder) {body : List String} (h : Balanced body) :
    (∃ items, Source.Splices body items) ∨ Source.Breaks encode body := by
  induction h with
  | nil => exact .inl ⟨[], .nil⟩
  | @blank line h =>
    refine .inl ⟨[], fun rest => ?_⟩
    rw [List.singleton_append, Source.levels_of_blank _ h, Outline.Levels.prepend_nil]
  | @leaf line act h =>
    refine .inl ⟨[.leaf ⟨0, Source.clean line⟩ act], fun rest => ?_⟩
    rw [List.singleton_append, Source.levels_of_leaf _ h]
  | nest h _ hclosing ih =>
    rcases ih with ⟨items, hitems⟩ | hbreaks
    · exact .inl ⟨_, hitems.enclose h hclosing⟩
    · exact .inr (hbreaks.enclose h _)
  | refused h _ _ _ => exact .inr (Source.breaks_of_refused h _)
  | append _ _ ihfront ihback =>
    rcases ihfront with ⟨items, hfront⟩ | hbreaks
    · rcases ihback with ⟨items', hback⟩ | hbreaks
      · exact .inl ⟨_, hfront.append hback⟩
      · exact .inr (hfront.append_breaks hbreaks)
    · exact .inr (hbreaks.append _)

section Repeats

open Source Outline

variable {opening closing : String} {body : List String}

theorem agree_repeat (encode : Encoder) {n : Nat} (hn : 0 < n)
    (hopening : role opening = .opens (.times n)) (hclosing : role closing = .closes)
    (hbody : Balanced body) (back : List String) :
    Levels.Agree encode (levels (opening :: (body ++ [closing]) ++ back))
      (levels ((List.replicate n body).flatten ++ back)) := by
  rcases hbody.splices_or_breaks encode with ⟨items, hitems⟩ | hbreaks
  · rw [hitems.enclose hopening hclosing, hitems.replicate n]
    exact (Levels.Agree.refl _).prepend (Assembly.agree_times _ items hn)
  · -- Both sides are refused where the body stands for the first time.
    obtain ⟨k, rfl⟩ : ∃ k, n = k + 1 := ⟨n - 1, by omega⟩
    rw [List.cons_append, List.append_assoc, List.replicate_succ, List.flatten_cons,
      List.append_assoc]
    exact .failed (fail_levels_cons hopening (hbreaks _ _))

/-- A body that is never done leaves nothing behind, if it is sound. -/
theorem agree_repeat_never {program : List Patch} (hopening : role opening = .opens (.times 0))
    (hclosing : role closing = .closes) (hbody : Balanced body)
    (hsound : (assemble powerPC body).result = .ok program) (back : List String) :
    Levels.Agree powerPC (levels (opening :: (body ++ [closing]) ++ back)) (levels back) := by
  have hfault : firstFault? (levels body).items = none := by
    rw [← fault_assemble_eq, Traced.fault?, hsound, Fault.of_ok]
  rcases hbody.splices_or_breaks powerPC with ⟨items, hitems⟩ | hbreaks
  · have halone : (levels body).items = items := by
      have h := hitems []
      rw [List.append_nil] at h
      rw [h, Levels.items_prepend]
      exact List.append_nil items
    have hback :=
      (Levels.Agree.refl (levels back)).prepend
        (Assembly.agree_never ⟨0, clean opening⟩ (halone ▸ hfault))
    rwa [Levels.prepend_nil, ← hitems.enclose hopening hclosing] at hback
  · obtain ⟨fault, hfail, -⟩ := hbreaks [] [] 0
    have hbody := Assembly.fault_emitAll (levels (body ++ [])).items 0
    rw [hfail, List.append_nil, hfault] at hbody
    cases hbody

end Repeats

/-- A repeat is its body written out, refusals included, wherever it stands. One that is never done
is nothing at all, if its body is sound. -/
theorem flatten_assemble_repeat :
    (∀ (encode : Encoder) (front body back : List String) (n : Nat), 1 ≤ n → n < 2 ^ 63 →
      Balanced body →
      (assemble encode (front ++ ["!repeat " ++ toString n] ++ body ++ ["!end"] ++ back)).result.map
        Patch.flattenAll =
        (assemble encode (front ++ (List.replicate n body).flatten ++ back)).result.map
          Patch.flattenAll) ∧
    ∀ (front body back : List String) (program : List Patch), Balanced body →
      (assemble powerPC body).result = .ok program →
      (assemble powerPC (front ++ ["!repeat 0"] ++ body ++ ["!end"] ++ back)).result.map
        Patch.flattenAll =
        (assemble powerPC (front ++ back)).result.map Patch.flattenAll := by
  have hend : Source.role "!end" = .closes := rfl
  have hlines : ∀ (opening : String) (front body back : List String),
      front ++ [opening] ++ body ++ ["!end"] ++ back =
        front ++ (opening :: (body ++ ["!end"]) ++ back) := by
    intro opening front body back
    simp only [List.append_assoc, List.cons_append, List.nil_append]
  constructor
  · intro encode front body back n hn hlt hbody
    have hopening : Source.role ("!repeat " ++ toString n) = .opens (.times n) :=
      Source.role_of_read (Statement.read_repeat hlt)
    rw [hlines, List.append_assoc]
    exact flatten_assemble_of_agree
      (Source.agree_levels_append (agree_repeat encode hn hopening hend hbody back) front)
  · intro front body back program hbody hsound
    have hopening : Source.role "!repeat 0" = .opens (.times 0) :=
      Source.role_of_read (Statement.read_repeat (n := 0) (by decide))
    rw [hlines]
    exact flatten_assemble_of_agree
      (Source.agree_levels_append (agree_repeat_never hopening hend hbody hsound back) front)

/-- A guard around data and a repeat that is never done, and an instruction that has to be
aligned. -/
def guardedBody : List String :=
  ["!u8 equal 1 ; guard", ".u8 7", "!repeat 0", ".u16 1", "!end", "!end", "nop"]

/-- The repeat stands in another one that is open, and the lines behind both are not read. -/
theorem flatten_guardedBody :
    Balanced guardedBody ∧
      (assemble powerPC (["0x80:", "!repeat 2"] ++ ["!repeat 3"] ++ guardedBody ++ ["!end"] ++
          [".u8 9", "!end", "!end", "?"])).result.map Patch.flattenAll =
        (assemble powerPC (["0x80:", "!repeat 2"] ++ (List.replicate 3 guardedBody).flatten ++
          [".u8 9", "!end", "!end", "?"])).result.map Patch.flattenAll ∧
      ∃ program, (assemble powerPC guardedBody).result = .ok program ∧
        (assemble powerPC (["0x80:"] ++ ["!repeat 0"] ++ guardedBody ++ ["!end"] ++
            ["nop"])).result.map Patch.flattenAll =
          (assemble powerPC (["0x80:"] ++ ["nop"])).result.map Patch.flattenAll := by
  have hguard : Statement.read (Source.clean "!u8 equal 1 ; guard") =
      .ok (.opens (.guard "u8 equal" .equal .u8 1)) := by
    decide +kernel
  have hbyte : Statement.read (Source.clean ".u8 7") = .ok (.plain (.data "u8" [7])) := by
    decide +kernel
  have hnever : Statement.read (Source.clean "!repeat 0") = .ok (.opens (.times 0)) := by
    decide +kernel
  have hhalf : Statement.read (Source.clean ".u16 1") = .ok (.plain (.data "u16" [0, 1])) := by
    decide +kernel
  have hend : Statement.read (Source.clean "!end") = .ok .closes := by decide +kernel
  have hnop : Statement.read (Source.clean "nop") = .ok (.plain (.instruction "nop" [])) := by
    decide +kernel
  have hinner : Balanced ["!repeat 0", ".u16 1", "!end"] :=
    .nest (Source.role_of_read hnever) (.leaf (Source.role_of_read hhalf))
      (Source.role_of_read hend)
  have houter : Balanced ["!u8 equal 1 ; guard", ".u8 7", "!repeat 0", ".u16 1", "!end", "!end"] :=
    .nest (Source.role_of_read hguard) (.append (.leaf (Source.role_of_read hbyte)) hinner)
      (Source.role_of_read hend)
  have hbody : Balanced guardedBody := houter.append (.leaf (Source.role_of_read hnop))
  have hlength : (assemble powerPC guardedBody).result.map List.length = .ok 2 := by decide +kernel
  obtain ⟨program, hsound, -⟩ := exists_of_map_eq_ok hlength
  obtain ⟨hrepeat, hskip⟩ := flatten_assemble_repeat
  exact ⟨hbody, hrepeat powerPC _ guardedBody _ 3 (by decide) (by decide) hbody, program, hsound,
    hskip _ guardedBody _ program hbody hsound⟩

end PatchCode
